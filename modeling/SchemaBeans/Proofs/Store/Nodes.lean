import SchemaBeans.Proofs.Store.Calls

/-! # New nodes

What looking schemas up makes are nodes that a pointer leads to in a known document, read from what
stands there. Only a merged schema may stand anywhere, because its place and content are given. -/
namespace SchemaBeans

/-- A node is no reference, and keywords and shape are what its content says. -/
structure SchemaNode.Read (node : SchemaNode) : Prop where
  keywords : Store.keywordsOf node.location node.content = .ok node.keywords
  plain : node.keywords.reference = none
  shape : Shape.classify node.keywords = .ok node.shape

/-- The node's location leads to its content, in a document that is or was known by its name. -/
def SchemaNode.Inside (known : List (String × Json)) (node : SchemaNode) : Prop :=
  ∃ document, (node.location.document, document) ∈ known ∧
    document.lookup? node.location.pointer = some node.content

theorem SchemaNode.Inside.mono {known more : List (String × Json)} (hmore : known ⊆ more)
    {node : SchemaNode} (h : node.Inside known) : node.Inside more := by
  obtain ⟨document, hdocument, hcontent⟩ := h
  exact ⟨document, hmore hdocument, hcontent⟩

namespace Store

variable {files : FileSystem} {st u : Store} {call : Call} {known : List (String × Json)}
  {p : SchemaNode → Prop}

/-- Documents stay known. If they are all among `known`, every node of the second store is one of
the first store, or it satisfies `p`. -/
structure Adds (known : List (String × Json)) (p : SchemaNode → Prop) (st u : Store) : Prop where
  documents : st.documents ⊆ u.documents
  nodes : u.documents ⊆ known → ∀ id, u.Has id → st.Has id ∧ u.node id = st.node id ∨ p (u.node id)

instance : IsPreorder Store (Adds known p) where
  refl st := ⟨List.Subset.refl _, fun _ _ hid => .inl ⟨hid, rfl⟩⟩
  trans _ _ _ h k := by
    refine ⟨List.Subset.trans h.documents k.documents, fun hknown id hid => ?_⟩
    rcases k.nodes hknown id hid with ⟨hold, hsame⟩ | hnew
    · rw [hsame]
      exact h.nodes (List.Subset.trans k.documents hknown) id hold
    · exact .inr hnew

theorem adds_of_nodes (hdocuments : st.documents ⊆ u.documents) (h : u.nodes = st.nodes) :
    Adds known p st u := by
  refine ⟨hdocuments, fun _ id hid => ?_⟩
  unfold Has Store.node at *
  rw [h] at hid ⊢
  exact .inl ⟨hid, rfl⟩

theorem adds_register (st : Store) (name : String) (content : Json) :
    Adds known p st (st.register name content) :=
  adds_of_nodes (List.subset_cons_self _ _) rfl

theorem adds_add {node : SchemaNode} (h : st.documents ⊆ known → p node) :
    Adds known p st (st.add node).2 := by
  refine ⟨List.Subset.refl _, fun hknown id hid => ?_⟩
  rcases has_add.mp hid with hold | rfl
  · exact .inl ⟨hold, node_add_of_has node hold⟩
  · rw [node_add_self]
    exact .inr (h hknown)

theorem Adds.forall (h : Adds known p st u) (hknown : u.documents ⊆ known)
    (hst : ∀ id, st.Has id → p (st.node id)) {id : NodeId} (hid : u.Has id) : p (u.node id) := by
  rcases h.nodes hknown id hid with ⟨hold, hsame⟩ | hnew
  · rw [hsame]
    exact hst id hold
  · exact hnew

theorem materialize_adds {step : Location → Action NodeId} {place : Location}
    {parent : Option NodeId} {content : Json}
    (hstep : ∀ target st, Follows (Adds known p) (step target) st fun _ _ => True) (st : Store)
    (hnode : st.documents ⊆ known → ∀ keywords shape,
      SchemaNode.Read ⟨place, parent, content, keywords, shape⟩ →
        p ⟨place, parent, content, keywords, shape⟩) :
    Follows (Adds known p) (materialize step place parent content) st fun _ _ => True := by
  unfold materialize
  refine Follows.lift_bind fun keywords hkeywords => ?_
  cases href : keywords.reference with
  | some reference =>
    refine Follows.lift_bind fun target _ => (hstep target st).bind fun id t _ _ => ?_
    exact Follows.change_bind (adds_of_nodes (List.Subset.refl _) rfl) (Follows.pure trivial)
  | none =>
    simp only
    cases hshape : Shape.classify keywords with
    | error name => exact Follows.throw
    | ok shape =>
      intro r t hx _
      cases hx
      exact ⟨adds_add fun h => hnode h keywords shape ⟨hkeywords, href, hshape⟩,
        fun _ _ => trivial⟩

theorem document_adds (name : String) (st : Store) :
    Follows (Adds known p) (document files name) st fun content t =>
      (name, content) ∈ t.documents := by
  unfold document
  refine Follows.after (a := st) rfl ?_
  cases hfound : st.documents.lookup name with
  | some content => exact Follows.pure (Json.mem_of_lookup hfound)
  | none =>
    refine Follows.lift_bind fun content _ => ?_
    exact Follows.change_bind (adds_register st name content)
      (Follows.pure (List.mem_cons_self ..))

section Known

variable (hp : ∀ node : SchemaNode, node.Read → node.Inside known → p node)

include hp

theorem follow_adds (fuel : Nat) : ∀ (chain : List Location) (place : Location) (st : Store),
    Follows (Adds known p) (follow files fuel chain place) st fun _ _ => True := by
  induction fuel with
  | zero => exact fun _ _ _ => Follows.throw
  | succ fuel ih =>
    intro chain place st
    unfold follow
    refine Follows.after (a := st) rfl ?_
    cases st.id? place with
    | some id => exact Follows.pure trivial
    | none =>
      simp only
      split
      · exact Follows.throw
      · refine (document_adds place.document st).bind fun content t _ hdocument => ?_
        cases hpart : content.lookup? place.pointer with
        | none => exact Follows.throw
        | some part =>
          refine materialize_adds (fun target u => ih (place :: chain) target u) t ?_
          exact fun hknown _ _ hread => hp _ hread ⟨content, hknown hdocument, hpart⟩

theorem resolve_adds (place : Location) (st : Store) :
    Follows (Adds known p) (resolve files place) st fun _ _ => True :=
  Follows.after (a := st) rfl (follow_adds hp _ [] place st)

theorem child_adds (parent : NodeId) (segments : List String) (st : Store)
    (hchild : st.documents ⊆ known → ∀ content keywords shape,
      (st.node parent).content.descend? segments = some content →
      SchemaNode.Read ⟨(st.node parent).location.below segments, some parent, content,
        keywords, shape⟩ →
        p ⟨(st.node parent).location.below segments, some parent, content, keywords, shape⟩) :
    Follows (Adds known p) (child files parent segments) st fun _ _ => True := by
  unfold child
  refine Follows.after (a := st) rfl (Follows.after (a := st) rfl ?_)
  simp only
  cases st.id? ((st.node parent).location.below segments) with
  | some id => exact Follows.pure trivial
  | none =>
    simp only
    cases hcontent : (st.node parent).content.descend? segments with
    | none => exact Follows.throw_bind
    | some content =>
      refine Follows.after (a := st) rfl ?_
      refine (materialize_adds (fun target u => follow_adds hp _ _ target u) st
        fun hknown keywords shape => hchild hknown content keywords shape hcontent).bind ?_
      exact fun id t _ _ => Follows.after (a := t) rfl (Follows.pure trivial)

theorem synthesize_adds {place : Location} {parent : NodeId} {content : Json} (st : Store)
    (hnode : ∀ keywords shape, SchemaNode.Read ⟨place, some parent, content, keywords, shape⟩ →
      p ⟨place, some parent, content, keywords, shape⟩) :
    Follows (Adds known p) (synthesize files place parent content) st fun _ _ => True := by
  unfold synthesize
  refine Follows.after (a := st) rfl ?_
  cases st.id? place with
  | some id => exact Follows.pure trivial
  | none =>
    refine Follows.after (a := st) rfl ?_
    exact materialize_adds (fun target u => follow_adds hp _ _ target u) st fun _ => hnode

/-- New nodes satisfy what holds of nodes inside a document and of those that the call itself
makes. -/
theorem Call.adds (files : FileSystem) (st : Store) (call : Call) (hcall : call ≠ .clear)
    (hchild : ∀ parent segments, call = .child parent segments → st.documents ⊆ known →
      ∀ content keywords shape, (st.node parent).content.descend? segments = some content →
      SchemaNode.Read ⟨(st.node parent).location.below segments, some parent, content,
        keywords, shape⟩ →
        p ⟨(st.node parent).location.below segments, some parent, content, keywords, shape⟩)
    (hmade : ∀ place parent content, call = .synthesize place parent content → ∀ keywords shape,
      SchemaNode.Read ⟨place, some parent, content, keywords, shape⟩ →
        p ⟨place, some parent, content, keywords, shape⟩) :
    Follows (Adds known p) (call.action files) st fun _ _ => True := by
  have hdiscard : ∀ {α : Type} {x : Action α}, (Follows (Adds known p) x st fun _ _ => True) →
      Follows (Adds known p) (do let _ ← x) st fun _ _ => True :=
    fun h => h.bind fun _ _ _ _ => Follows.pure trivial
  cases call with
  | register document content => exact Follows.change (adds_register st document content) trivial
  | clear => exact absurd rfl hcall
  | resolve place => exact hdiscard (resolve_adds hp place st)
  | load path => exact hdiscard (Follows.lift_bind fun _ _ => resolve_adds hp _ st)
  | child parent segments => exact hdiscard (child_adds hp parent segments st (hchild _ _ rfl))
  | reference source text =>
    exact hdiscard (Follows.after (a := st) rfl (Follows.lift_bind fun _ _ => resolve_adds hp _ st))
  | synthesize place parent content => exact hdiscard (synthesize_adds hp st (hmade _ _ _ rfl))

end Known

theorem Reaches.nodes {allows : FileSystem → Call → Prop} {p : Store → SchemaNode → Prop}
    (h : Reaches allows {} u)
    (hstep : ∀ files call (t w : Store), allows files call → call ≠ .clear → call.Known t →
      (∀ id, t.Has id → p t (t.node id)) → Follows (Adds w.documents (p w)) (call.action files) t
        fun _ _ => True)
    (hmono : ∀ (t w : Store) node, t.documents ⊆ w.documents → p t node → p w node) :
    ∀ id, u.Has id → p u (u.node id) := by
  induction h with
  | refl => exact fun id hid => absurd hid (by simp [Has])
  | @tail t w _ hcall ih =>
    cases hcall with | @intro files call r hallowed hknown hrun
    by_cases hclear : call = .clear
    · subst hclear
      cases hrun
      exact fun id hid => absurd hid (by simp [Has])
    · have hadds := (hstep files call t w hallowed hclear hknown ih _ _ hrun
        (call.ends files t _ _ hrun).1).1
      exact fun id hid => hadds.forall (List.Subset.refl _)
        (fun id hid => hmono t w _ hadds.documents (ih id hid)) hid

theorem Reaches.read {allows : FileSystem → Call → Prop} (h : Reaches allows {} u) :
    ∀ id, u.Has id → (u.node id).Read :=
  h.nodes (p := fun _ node => node.Read) (fun files call t _ _ hclear _ _ =>
    Call.adds (fun _ h _ => h) files t call hclear (fun _ _ _ _ _ _ _ _ h => h)
      fun _ _ _ _ _ _ h => h) fun _ _ _ _ h => h

end Store

end SchemaBeans
