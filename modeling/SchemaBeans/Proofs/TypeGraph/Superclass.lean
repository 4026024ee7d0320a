import Mathlib.Data.List.Nodup
import Mathlib.Data.List.Perm.Subperm
import Mathlib.Logic.Relation
import SchemaBeans.Proofs.TypeGraph.Access

/-! # Superclass links

A graph is acyclic if no type is on its own chain of generated superclasses. In an acyclic graph the
chain ends before the fuel of a lookup does, so the check made before a new link answers whether the
link would close a cycle. -/
namespace SchemaBeans.TypeGraph

/-- The second type is the generated superclass of the first one. -/
def Extends (g : TypeGraph) (a b : TypeId) : Prop := (g.get a).superclass? = some b

def Acyclic (g : TypeGraph) : Prop := ∀ id, ¬ Relation.TransGen g.Extends id id

instance (g : TypeGraph) (a b : TypeId) : Decidable (g.Extends a b) :=
  inferInstanceAs (Decidable (_ = _))

theorem extends_iff_supertype {g : TypeGraph} {a b : TypeId} :
    g.Extends a b ↔ (g.get a).supertype = some (.generated b) := by
  unfold Extends TypeDecl.superclass?
  split
  · rename_i parent hsuper
    simp [hsuper]
  · rename_i hnot
    constructor
    · intro h
      cases h
    · exact fun h => absurd h (hnot b)

theorem Extends.has {g : TypeGraph} {a b : TypeId} (h : g.Extends a b) : g.Has a := by
  by_contra hn
  unfold Extends at h
  rw [get_of_not_has hn] at h
  cases h

/-- One edge more closes a cycle only if its end already led to its start. -/
theorem acyclic_of_edge {α : Type*} {r s : α → α → Prop} (hr : ∀ a, ¬ Relation.TransGen r a a)
    {x y : α} (hs : ∀ a b, s a b → r a b ∨ (a = x ∧ b = y)) (hxy : ¬ Relation.ReflTransGen r y x) :
    ∀ a, ¬ Relation.TransGen s a a := by
  have hsplit : ∀ a b, Relation.TransGen s a b →
      Relation.TransGen r a b ∨ (Relation.ReflTransGen r a x ∧ Relation.ReflTransGen r y b) := by
    intro a b h
    induction h with
    | single hab =>
      rcases hs _ _ hab with h | ⟨rfl, rfl⟩
      · exact Or.inl (.single h)
      · exact Or.inr ⟨.refl, .refl⟩
    | tail _ hbc ih =>
      rcases hs _ _ hbc with h | ⟨rfl, rfl⟩
      · rcases ih with ih | ⟨hax, hyb⟩
        · exact Or.inl (ih.tail h)
        · exact Or.inr ⟨hax, hyb.tail h⟩
      · rcases ih with ih | ⟨hax, _⟩
        · exact Or.inr ⟨ih.to_reflTransGen, .refl⟩
        · exact Or.inr ⟨hax, .refl⟩
  intro a ha
  rcases hsplit a a ha with h | ⟨hax, hya⟩
  · exact hr a h
  · exact hxy (hya.trans hax)

theorem length_ids (g : TypeGraph) : g.ids.length = g.size := by
  simp [ids]

/-- Up the superclasses of an acyclic graph, one round more than there are types is enough. `seen`
holds the types passed on the way; they and the rounds left are more than there are types, so the
rounds cannot run out on a way that passes no type twice. -/
theorem Acyclic.ascend {g : TypeGraph} (hg : g.Acyclic) {P : Nat → TypeId → Prop}
    (step : ∀ rounds id, (∀ parent, g.Extends id parent → P rounds parent) → P (rounds + 1) id)
    (id : TypeId) : P (g.size + 1) id := by
  suffices h : ∀ (rounds : Nat) (seen : List TypeId) (id : TypeId), seen.Nodup →
      (∀ a ∈ seen, g.Has a) → (∀ a ∈ seen, Relation.TransGen g.Extends a id) →
        g.size < seen.length + rounds → P rounds id from
    h _ [] id List.nodup_nil (by simp) (by simp) (by simp)
  intro rounds
  induction rounds with
  | zero =>
    intro seen id hnodup hhas _ hlen
    have hle := (hnodup.subperm fun a ha => mem_ids.mpr (hhas a ha)).length_le
    rw [length_ids] at hle
    omega
  | succ rounds ih =>
    intro seen id hnodup hhas hreach hlen
    refine step rounds id fun parent hparent => ih (id :: seen) parent ?_ ?_ ?_ ?_
    · exact List.nodup_cons.mpr ⟨fun hid => hg id (hreach id hid), hnodup⟩
    · intro a ha
      rcases List.mem_cons.mp ha with rfl | ha
      · exact hparent.has
      · exact hhas a ha
    · intro a ha
      rcases List.mem_cons.mp ha with rfl | ha
      · exact .single hparent
      · exact (hreach a ha).tail hparent
    · simp only [List.length_cons]
      omega

private theorem mem_lineage {g : TypeGraph} (hg : g.Acyclic) {id ancestor : TypeId} :
    Relation.ReflTransGen g.Extends id ancestor → ancestor ∈ g.lineage id := by
  refine hg.ascend (P := fun rounds id => Relation.ReflTransGen g.Extends id ancestor →
    ancestor ∈ chain (fun id => (g.get id).superclass?) rounds id) ?_ id
  intro rounds id hparent hpath
  rw [chain]
  rcases hpath.cases_head with rfl | ⟨next, hnext, hrest⟩
  · split <;> simp
  · have hlink : (g.get id).superclass? = some next := hnext
    rw [hlink]
    exact List.mem_cons_of_mem _ (hparent next hnext hrest)

theorem self_mem_lineage (g : TypeGraph) (id : TypeId) : id ∈ g.lineage id := by
  rw [lineage, chain]
  split <;> simp

private theorem reach_of_mem_chain {g : TypeGraph} {ancestor : TypeId} :
    ∀ (fuel : Nat) (id : TypeId), ancestor ∈ chain (fun id => (g.get id).superclass?) fuel id →
      Relation.ReflTransGen g.Extends id ancestor := by
  intro fuel
  induction fuel with
  | zero => intro id h; cases h
  | succ fuel ih =>
    intro id h
    rw [chain] at h
    split at h
    · rename_i next hnext
      rcases List.mem_cons.mp h with rfl | h
      · exact .refl
      · exact .head hnext (ih next h)
    · rw [List.mem_singleton] at h
      rw [h]

theorem inherits_iff {g : TypeGraph} (hg : g.Acyclic) {id ancestor : TypeId} :
    g.inherits id ancestor = true ↔ Relation.ReflTransGen g.Extends id ancestor := by
  unfold inherits
  rw [List.contains_iff_mem]
  constructor
  · exact reach_of_mem_chain _ id
  · exact mem_lineage hg

theorem extends_update {g : TypeGraph} {id a b : TypeId} {change : TypeDecl → TypeDecl}
    (h : (g.update id change).Extends a b) :
    g.Extends a b ∨ (a = id ∧ (change (g.get id)).superclass? = some b) := by
  have hhas : g.Has a := by simpa using h.has
  unfold Extends at *
  by_cases ha : a = id
  · subst ha
    rw [get_update_self hhas] at h
    exact Or.inr ⟨rfl, h⟩
  · rw [get_update_ne ha] at h
    exact Or.inl h

theorem Acyclic.of_extends {g h : TypeGraph} (hg : g.Acyclic)
    (hsub : ∀ a b, h.Extends a b → g.Extends a b) : h.Acyclic :=
  fun id hid => hg id (Relation.TransGen.mono hsub _ _ hid)

/-- A change that leaves the superclass of its type alone. -/
theorem Acyclic.update {g : TypeGraph} (hg : g.Acyclic) (id : TypeId) {change : TypeDecl → TypeDecl}
    (hc : (change (g.get id)).superclass? = (g.get id).superclass?) :
      (g.update id change).Acyclic := by
  refine hg.of_extends fun a b hab => ?_
  rcases extends_update hab with h | ⟨rfl, h⟩
  · exact h
  · exact hc.symm.trans h

theorem Acyclic.update_no_superclass {g : TypeGraph} (hg : g.Acyclic) {id : TypeId}
    {change : TypeDecl → TypeDecl} (hc : (change (g.get id)).superclass? = none) :
    (g.update id change).Acyclic := by
  refine hg.of_extends fun a b hab => ?_
  rcases extends_update hab with h | ⟨rfl, h⟩
  · exact h
  · rw [hc] at h
    cases h

theorem Acyclic.update_superclass {g : TypeGraph} (hg : g.Acyclic) {id parent : TypeId}
    {change : TypeDecl → TypeDecl} (hc : (change (g.get id)).superclass? = some parent)
    (hfree : g.inherits parent id = false) : (g.update id change).Acyclic := by
  refine acyclic_of_edge (x := id) (y := parent) hg (fun a b hab => ?_) fun hreach => ?_
  · rcases extends_update hab with h | ⟨ha, h⟩
    · exact Or.inl h
    · exact Or.inr ⟨ha, (Option.some.inj (hc ▸ h)).symm⟩
  · rw [(inherits_iff hg).mpr hreach] at hfree
    cases hfree

theorem acyclic_insert {g : TypeGraph} (hg : g.Acyclic) {decl : TypeDecl}
    (hd : decl.supertype = none) : (g.insert decl).2.Acyclic := by
  refine hg.of_extends fun a b hab => ?_
  unfold Extends at *
  rcases has_insert.mp (Extends.has hab) with h | rfl
  · rwa [get_insert_of_has h] at hab
  · rw [get_insert_self, TypeDecl.superclass?, hd] at hab
    cases hab

theorem acyclic_empty : (({} : TypeGraph)).Acyclic := by
  intro id h
  obtain ⟨b, hb, _⟩ := Relation.TransGen.head'_iff.mp h
  have := hb.has
  simp [Has, size] at this

end SchemaBeans.TypeGraph
