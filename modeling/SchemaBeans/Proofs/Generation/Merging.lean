import SchemaBeans.Generation.AllOf
import SchemaBeans.Generation.Draft
import SchemaBeans.Proofs.Store.Lookup

/-! # Merged schemas

`Merges` says of a store that the schema of an `allOf` is merged already, in terms of what the store
holds and of the schemas that must not occur among the members. A schema that merges is merged again
without a change, however the stack of open merges got there: a merge that fails leaves its schemas
on the stack, but none of them is needed by one that has succeeded. -/

namespace SchemaBeans.Drafting

variable {α : Type} {R : Draft → Draft → Prop} {d : Draft}

theorem run_inStore (action : Store.Action α) (d : Draft) :
    (inStore action).run d =
      ((action.run d.store).1, { d with store := (action.run d.store).2 }) := by
  unfold inStore
  refine (run_bind_ok (a := d) (t := d) rfl).trans ?_
  rcases action.run d.store with ⟨r, st⟩
  cases r <;> rfl

theorem inStore_follows {action : Store.Action α} {Q : α → Store → Prop}
    (h : Follows Store.Grows action d.store Q)
    (hR : ∀ st, d.store.Grows st → R d { d with store := st }) :
    Follows R (inStore action) d (fun a e => e = { d with store := e.store } ∧ Q a e.store) := by
  intro r e hx hr
  rw [run_inStore] at hx
  cases hx
  obtain ⟨hg, hQ⟩ := h _ _ rfl hr
  exact ⟨hR _ hg, fun a ha => ⟨rfl, hQ a ha⟩⟩

theorem inStore_repeats {action : Store.Action α} {a : α} (h : Repeats action d.store a) :
    Repeats (inStore action) d a := by
  unfold Repeats at *
  rw [run_inStore, h]

theorem child_follows (ctx : Context) {parent : NodeId} (segments : List String)
    (hs : d.store.Sound) (hp : d.store.Has parent)
    (hR : ∀ st, d.store.Grows st → R d { d with store := st }) :
    Follows R (child ctx parent segments) d
      (fun found e => e = { d with store := e.store } ∧ e.store.Found parent segments found) :=
  inStore_follows (Store.child_grows segments hs hp) hR

theorem child_repeats (ctx : Context) {parent : NodeId} {segments : List String}
    {found : Store.Child} (h : d.store.Found parent segments found) :
    Repeats (child ctx parent segments) d found :=
  inStore_repeats (Store.child_repeats h)

end SchemaBeans.Drafting

namespace SchemaBeans.Drafting

/-- What the member at an index adds to what is merged so far. -/
inductive Takes (st : Store) (merges : NodeId → NodeId → Prop) (id : NodeId) (sofar : AllOf)
    (index : Nat) : AllOf → Prop
  | parent {found : Store.Child} (hfound : st.Found id ["allOf", toString index] found)
      (hparent : (found.byReference && !sofar.settled &&
        (st.node found.id).keywords.family.isSome) = true) :
      Takes st merges id sofar index
        { sofar with settled := true, parent := some (st.node found.id).location }
  | part {found : Store.Child} {member : NodeId} {content : Json}
      (hfound : st.Found id ["allOf", toString index] found)
      (hparent : (found.byReference && !sofar.settled &&
        (st.node found.id).keywords.family.isSome) = false)
      (hmember : if (st.node found.id).shape = .allOf then merges found.id member
        else member = found.id)
      (hcontent :
        (st.node member).content.anchor (st.node member).location.document = .ok content) :
      Takes st merges id sofar index
        { sofar with
          merged := sofar.merged.merge
            (if found.byReference then withoutFamily content else content) }

def TakesAll (st : Store) (merges : NodeId → NodeId → Prop) (id : NodeId) :
    List Nat → AllOf → AllOf → Prop
  | [], sofar, all => all = sofar
  | index :: rest, sofar, all =>
    ∃ next, Takes st merges id sofar index next ∧ TakesAll st merges id rest next all

/-- Nothing is merged yet; an `extends` of its own settles the superclass. -/
def unmerged (schema : SchemaNode) : AllOf :=
  ⟨.object [], ((ownContent schema.content).member? "extends").isSome, none⟩

/-- The second schema is the merge of the first one, which stands at most as deep as the number says
and uses none of the barred schemas. -/
def Merges (st : Store) (barred : List NodeId) : Nat → NodeId → NodeId → Prop
  | 0, _, _ => False
  | fuel + 1, id, made =>
    st.Has id ∧ id ∉ barred ∧
    st.id? ((st.node id).location.below ["allOf"]) = some made ∧
    (∃ all, TakesAll st (Merges st barred fuel) id
      (List.range ((st.node id).keywords.allOf.getD []).length) (unmerged (st.node id)) all) ∧
    ∃ own, (ownContent (st.node id).content).anchor (st.node id).location.document = .ok own

section Members

variable {st u : Store} {merges merges' : NodeId → NodeId → Prop} {id : NodeId}

theorem Takes.imp (hfound : ∀ segments found, st.Found id segments found →
      u.Found id segments found ∧ u.node found.id = st.node found.id)
    (hmerges : ∀ a b, merges a b → merges' a b ∧ u.node b = st.node b)
    {sofar next : AllOf} {index : Nat} (h : Takes st merges id sofar index next) :
    Takes u merges' id sofar index next := by
  cases h with
  | @parent found hf hp =>
    obtain ⟨hf', hnode⟩ := hfound _ _ hf
    rw [← hnode] at hp ⊢
    exact Takes.parent hf' hp
  | @part found member content hf hp hm hc =>
    obtain ⟨hf', hnode⟩ := hfound _ _ hf
    have hmember : (if (u.node found.id).shape = .allOf then merges' found.id member
        else member = found.id) ∧ u.node member = st.node member := by
      rw [hnode]
      split at hm
      · obtain ⟨hm', hnode'⟩ := hmerges _ _ hm
        exact ⟨by simp [*], hnode'⟩
      · rw [hm]
        exact ⟨by simp [*], hnode⟩
    refine Takes.part hf' (by rw [hnode]; exact hp) hmember.1 ?_
    rw [hmember.2]
    exact hc

theorem TakesAll.imp (hfound : ∀ segments found, st.Found id segments found →
      u.Found id segments found ∧ u.node found.id = st.node found.id)
    (hmerges : ∀ a b, merges a b → merges' a b ∧ u.node b = st.node b) :
    ∀ (indices : List Nat) (sofar all : AllOf), TakesAll st merges id indices sofar all →
      TakesAll u merges' id indices sofar all := by
  intro indices
  induction indices with
  | nil => exact fun _ _ h => h
  | cons index rest ih =>
    rintro sofar all ⟨next, hnext, hrest⟩
    exact ⟨next, hnext.imp hfound hmerges, ih next all hrest⟩

theorem TakesAll.snoc {index : Nat} {next : AllOf} :
    ∀ (indices : List Nat) (sofar all : AllOf), TakesAll st merges id indices sofar all →
      Takes st merges id all index next →
        TakesAll st merges id (indices ++ [index]) sofar next := by
  intro indices
  induction indices with
  | nil =>
    rintro sofar all rfl h
    exact ⟨next, h, rfl⟩
  | cons first rest ih =>
    rintro sofar all ⟨mid, hmid, hrest⟩ h
    exact ⟨mid, hmid, ih mid all hrest h⟩

end Members

section Merges

variable {st u : Store} {barred : List NodeId} {k : Nat} {id made : NodeId}

theorem Merges.place (h : Merges st barred k id made) :
    st.id? ((st.node id).location.below ["allOf"]) = some made := by
  cases k with
  | zero => exact h.elim
  | succ k => exact h.2.2.1

theorem Merges.has (h : Merges st barred k id made) : st.Has id := by
  cases k with
  | zero => exact h.elim
  | succ k => exact h.1

theorem Merges.has_made (h : Merges st barred k id made) (hs : st.Sound) : st.Has made :=
  hs.bound h.place

theorem Merges.unique {barred' : List NodeId} {l : Nat} {other : NodeId}
    (h : Merges st barred k id made) (h' : Merges st barred' l id other) : made = other :=
  Option.some.inj (h.place.symm.trans h'.place)

theorem Merges.mono : ∀ {k f : Nat} {id made : NodeId}, k ≤ f → Merges st barred k id made →
    Merges st barred f id made := by
  intro k
  induction k with
  | zero => exact fun _ h => h.elim
  | succ k ih =>
    intro f id made hle h
    obtain ⟨f, rfl⟩ : ∃ g, f = g + 1 := ⟨f - 1, by omega⟩
    obtain ⟨hid, hbar, hplace, ⟨all, hall⟩, hown⟩ := h
    refine ⟨hid, hbar, hplace, ⟨all, ?_⟩, hown⟩
    exact hall.imp (fun _ _ hf => ⟨hf, rfl⟩) (fun a b hab => ⟨ih (by omega) hab, rfl⟩)

/-- Fewer schemas may be barred. -/
theorem Merges.unbar {fewer : List NodeId} (hsub : fewer ⊆ barred) : ∀ {k : Nat} {id made : NodeId},
    Merges st barred k id made → Merges st fewer k id made := by
  intro k
  induction k with
  | zero => exact fun h => h.elim
  | succ k ih =>
    rintro id made ⟨hid, hbar, hplace, ⟨all, hall⟩, hown⟩
    refine ⟨hid, fun h => hbar (hsub h), hplace, ⟨all, ?_⟩, hown⟩
    exact hall.imp (fun _ _ hf => ⟨hf, rfl⟩) (fun a b hab => ⟨ih hab, rfl⟩)

/-- A schema that does not merge occurs in no merge, so it may be barred. -/
theorem Merges.bar {n : NodeId} : ∀ {k : Nat} {id made : NodeId},
    (∀ m, ¬ Merges st barred k n m) → Merges st barred k id made →
      Merges st (n :: barred) k id made := by
  intro k
  induction k with
  | zero => exact fun _ h => h.elim
  | succ k ih =>
    intro id made hn h
    have hne : id ≠ n := fun he => hn made (he ▸ h)
    obtain ⟨hid, hbar, hplace, ⟨all, hall⟩, hown⟩ := h
    refine ⟨hid, by simp [hne, hbar], hplace, ⟨all, ?_⟩, hown⟩
    have hn' : ∀ m, ¬ Merges st barred k n m := fun m hm => hn m (hm.mono (Nat.le_succ k))
    exact hall.imp (fun _ _ hf => ⟨hf, rfl⟩) (fun a b hab => ⟨ih hn' hab, rfl⟩)

theorem Merges.grows (hs : st.Sound) (hg : st.Grows u) : ∀ {k : Nat} {id made : NodeId},
    Merges st barred k id made → Merges u barred k id made := by
  intro k
  induction k with
  | zero => exact fun h => h.elim
  | succ k ih =>
    rintro id made ⟨hid, hbar, hplace, ⟨all, hall⟩, hown⟩
    have hnode := hg.node hid
    refine ⟨hg.has hid, hbar, by rw [hnode]; exact hg.index hplace, ⟨all, ?_⟩,
      by rw [hnode]; exact hown⟩
    rw [hnode]
    exact hall.imp (fun _ _ hf => ⟨hf.grows hs hid hg, hg.node (hf.has hs)⟩)
      (fun a b hab => ⟨ih hab, hg.node (hab.has_made hs)⟩)

theorem TakesAll.grows (hs : st.Sound) (hg : st.Grows u) (hid : st.Has id) {indices : List Nat}
    {sofar all : AllOf} (h : TakesAll st (Merges st barred k) id indices sofar all) :
    TakesAll u (Merges u barred k) id indices sofar all :=
  h.imp (fun _ _ hf => ⟨hf.grows hs hid hg, hg.node (hf.has hs)⟩)
    (fun _ _ hab => ⟨hab.grows hs hg, hg.node (hab.has_made hs)⟩)

theorem Takes.unbar {fewer : List NodeId} (hsub : fewer ⊆ barred) {sofar next : AllOf} {index : Nat}
    (h : Takes st (Merges st barred k) id sofar index next) :
    Takes st (Merges st fewer k) id sofar index next :=
  h.imp (fun _ _ hf => ⟨hf, rfl⟩) (fun _ _ hab => ⟨hab.unbar hsub, rfl⟩)

end Merges

end SchemaBeans.Drafting
