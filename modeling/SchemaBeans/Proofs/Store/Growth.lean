import SchemaBeans.Proofs.Outcome
import SchemaBeans.Store

/-! # Growth of the store

Looking schemas up only adds to a store: nodes and index entries stay what they are, and every node
is the node of its own location. An entry for a place under way is never made by the places it leads
to, because they carry it in their chain. -/
namespace SchemaBeans.Store

/-- The id was handed out. -/
def Has (st : Store) (id : NodeId) : Prop := id.index < st.nodes.size

structure Sound (st : Store) : Prop where
  bound : ∀ {place id}, st.id? place = some id → st.Has id
  own : ∀ {id}, st.Has id → st.id? (st.node id).location = some id

theorem Sound.unique {st : Store} (h : st.Sound) {a b : NodeId} (ha : st.Has a) (hb : st.Has b)
    (heq : (st.node a).location = (st.node b).location) : a = b := by
  have hid := h.own ha
  rw [heq, h.own hb] at hid
  exact (Option.some.inj hid).symm

/-- The second store has everything that the first one has. -/
structure Grows (st u : Store) : Prop where
  documents : st.documents <:+ u.documents
  nodes : st.nodes.toList <+: u.nodes.toList
  index : ∀ {place id}, st.id? place = some id → u.id? place = some id
  sound : st.Sound → u.Sound

/-- Growth that leaves the places of a chain without a node. -/
structure Spares (chain : List Location) (st u : Store) : Prop extends Grows st u where
  free : ∀ place ∈ chain, st.id? place = none → u.id? place = none

instance : IsPreorder Store Grows where
  refl _ := ⟨List.suffix_refl _, List.prefix_refl _, id, id⟩
  trans _ _ _ h k :=
    ⟨h.documents.trans k.documents, h.nodes.trans k.nodes, fun hp => k.index (h.index hp),
      fun hs => k.sound (h.sound hs)⟩

instance (chain : List Location) : IsPreorder Store (Spares chain) where
  refl st := ⟨refl st, fun _ _ h => h⟩
  trans _ _ _ h k :=
    ⟨IsTrans.trans _ _ _ h.toGrows k.toGrows, fun p hp hn => k.free p hp (h.free p hp hn)⟩

section Growth

variable {st u : Store}

theorem Grows.size_le (h : Grows st u) : st.nodes.size ≤ u.nodes.size := by
  have := h.nodes.length_le
  simpa using this

theorem Grows.has (h : Grows st u) {id : NodeId} (hid : st.Has id) : u.Has id :=
  Nat.lt_of_lt_of_le hid h.size_le

/-- A node that was handed out never changes. -/
theorem Grows.node (h : Grows st u) {id : NodeId} (hid : st.Has id) : u.node id = st.node id := by
  obtain ⟨rest, hrest⟩ := h.nodes
  unfold Has at hid
  have hget : u.nodes[id.index]? = st.nodes[id.index]? := by
    rw [← Array.getElem?_toList, ← Array.getElem?_toList, ← hrest,
      List.getElem?_append_left (by simpa using hid)]
  unfold Store.node
  rw [Array.getD_eq_getD_getElem?, Array.getD_eq_getD_getElem?, hget]

theorem id?_cons (documents : List (String × Json)) (nodes : Array SchemaNode)
    (place other : Location) (id : NodeId) (index : List (Location × NodeId)) :
    id? ⟨documents, nodes, (place, id) :: index⟩ other =
      if other = place then some id else id? ⟨documents, nodes, index⟩ other := by
  unfold id?
  rw [List.lookup_cons]
  by_cases h : other = place
  · simp [h]
  · simp [h, beq_eq_false_iff_ne.mpr h]

theorem id?_bind (st : Store) (place other : Location) (id : NodeId) :
    (st.bind place id).id? other = if other = place then some id else st.id? other :=
  id?_cons _ _ place other id _

theorem id?_add (st : Store) (node : SchemaNode) (other : Location) :
    (st.add node).2.id? other =
      if other = node.location then some ⟨st.nodes.size⟩ else st.id? other :=
  id?_cons _ _ node.location other _ _

theorem grows_register (st : Store) (document : String) (content : Json) :
    Grows st (st.register document content) :=
  ⟨List.suffix_cons _ _, List.prefix_refl _, id, fun h => ⟨h.bound, h.own⟩⟩

theorem grows_bind {place : Location} {id : NodeId} (hfree : st.id? place = none)
    (hid : st.Has id) : Grows st (st.bind place id) := by
  have hkeep : ∀ {other i}, st.id? other = some i → (st.bind place id).id? other = some i := by
    intro other i h
    rw [id?_bind, if_neg (fun he => by rw [he, hfree] at h; cases h)]
    exact h
  refine ⟨List.suffix_refl _, List.prefix_refl _, hkeep, fun hs => ⟨?_, ?_⟩⟩
  · intro other i h
    rw [id?_bind] at h
    split at h
    · cases h; exact hid
    · exact hs.bound h
  · intro i hi
    exact hkeep (hs.own hi)

theorem node_add_of_has (node : SchemaNode) {id : NodeId} (hid : st.Has id) :
    (st.add node).2.node id = st.node id := by
  unfold Has at hid
  simp only [add, Store.node, Array.getD_eq_getD_getElem?]
  rw [Array.getElem?_push_lt hid, Array.getElem?_eq_getElem hid]

theorem has_add {node : SchemaNode} {id : NodeId} :
    (st.add node).2.Has id ↔ st.Has id ∨ id = ⟨st.nodes.size⟩ := by
  rcases id with ⟨i⟩
  simp only [Has, add, Array.size_push, NodeId.mk.injEq]
  omega

theorem node_add_self (st : Store) (node : SchemaNode) :
    (st.add node).2.node ⟨st.nodes.size⟩ = node := by
  simp [add, Store.node, Array.getD_eq_getD_getElem?]

theorem grows_add (node : SchemaNode) (hfree : st.id? node.location = none) :
    Grows st (st.add node).2 := by
  have hkeep : ∀ {other i}, st.id? other = some i → (st.add node).2.id? other = some i := by
    intro other i h
    rw [id?_add, if_neg (fun he => by rw [he, hfree] at h; cases h)]
    exact h
  refine ⟨List.suffix_refl _, ?_, hkeep, fun hs => ⟨?_, ?_⟩⟩
  · simp [add]
  · intro other i h
    rw [id?_add] at h
    split at h
    · cases h
      exact has_add.mpr (.inr rfl)
    · exact has_add.mpr (.inl (hs.bound h))
  · intro i hi
    rcases has_add.mp hi with hold | rfl
    · rw [node_add_of_has node hold]
      exact hkeep (hs.own hold)
    · rw [node_add_self, id?_add, if_pos rfl]

end Growth

end SchemaBeans.Store
