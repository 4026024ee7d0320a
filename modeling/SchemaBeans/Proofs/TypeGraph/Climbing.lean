import SchemaBeans.Proofs.TypeGraph.Superclass

/-! # Climbing superclass links

A lookup among superclasses goes from a type to its superclass until it meets the ancestor or
finds none. Nothing bounds the number of its rounds, so it goes on for ever on a cycle. In an
acyclic graph one round more than there are types is enough. -/

namespace SchemaBeans.TypeGraph

variable {g : TypeGraph} {line above : List TypeId} {type parent ancestor : TypeId}

/-- The types lead from the topmost generated superclass of a type down to the type itself. -/
inductive Descends (g : TypeGraph) : List TypeId → TypeId → Prop
  | top {type : TypeId} (htop : (g.get type).superclass? = none) : Descends g [type] type
  | next {above : List TypeId} {parent type : TypeId} (hlink : g.Extends type parent)
      (habove : Descends g above parent) : Descends g (above ++ [type]) type

theorem Descends.unique {other : List TypeId} (h : g.Descends line type)
    (k : g.Descends other type) : line = other := by
  induction h generalizing other with
  | top htop =>
    cases k with
    | top => rfl
    | next hlink => simp_all [Extends]
  | next hlink _ ih =>
    cases k with
    | top htop => simp_all [Extends]
    | next hother habove =>
      obtain rfl := Option.some.inj (hlink.symm.trans hother)
      rw [ih habove]

theorem Acyclic.descends (hg : g.Acyclic) (type : TypeId) : ∃ line, g.Descends line type := by
  refine hg.ascend (P := fun _ type => ∃ line, g.Descends line type) ?_ type
  intro _ type hparent
  cases hlink : (g.get type).superclass? with
  | none => exact ⟨_, .top hlink⟩
  | some parent =>
    obtain ⟨above, habove⟩ := hparent parent hlink
    exact ⟨_, .next hlink habove⟩

theorem Acyclic.chain_eq (hg : g.Acyclic) (type : TypeId) : ∀ rounds, g.size + 1 ≤ rounds →
    chain (fun id => (g.get id).superclass?) rounds type = g.lineage type := by
  refine hg.ascend (P := fun enough type => ∀ rounds, enough ≤ rounds →
    chain (fun id => (g.get id).superclass?) rounds type =
      chain (fun id => (g.get id).superclass?) enough type) ?_ type
  intro enough type hparent rounds hrounds
  obtain ⟨rounds, rfl⟩ : ∃ fewer, rounds = fewer + 1 := ⟨rounds - 1, by omega⟩
  rw [chain, chain]
  cases hlink : (g.get type).superclass? with
  | none => rfl
  | some parent =>
    dsimp only
    rw [hparent parent hlink rounds (by omega)]

theorem Acyclic.lineage_of_extends (hg : g.Acyclic) (h : g.Extends type parent) :
    g.lineage type = type :: g.lineage parent := by
  have hlink : (g.get type).superclass? = some parent := h
  rw [← hg.chain_eq type (g.size + 2) (Nat.le_succ _), chain, hlink]
  rfl

theorem lineage_of_top (h : (g.get type).superclass? = none) : g.lineage type = [type] := by
  rw [lineage, chain, h]

theorem Descends.lineage (h : g.Descends line type) (hg : g.Acyclic) :
    (g.lineage type).reverse = line := by
  induction h with
  | top htop => rw [lineage_of_top htop, List.reverse_singleton]
  | next hlink _ ih => rw [hg.lineage_of_extends hlink, List.reverse_cons, ih]

end SchemaBeans.TypeGraph

namespace SchemaBeans.TypeGraph

/-- Goes up from a type until it meets the ancestor; there is no answer if the rounds run out. -/
def climb (g : TypeGraph) (ancestor : TypeId) : Nat → TypeId → Option Bool
  | 0, _ => none
  | rounds + 1, id =>
    if id = ancestor then some true
    else
      match (g.get id).superclass? with
      | some parent => g.climb ancestor rounds parent
      | none => some false

/-- No type is on its own chain of superclasses, and every climb comes to the answer of the lookup,
which tells whether the ancestor is on the chain of the type. -/
structure Climbable (g : TypeGraph) : Prop where
  acyclic : ∀ id, ¬ Relation.TransGen g.Extends id id
  ends : ∀ id ancestor, g.climb ancestor (g.size + 1) id = some (g.inherits id ancestor)
  tells : ∀ id ancestor,
    g.inherits id ancestor = true ↔ Relation.ReflTransGen g.Extends id ancestor

variable {g : TypeGraph} {ancestor : TypeId}

theorem climb_exact : ∀ (rounds : Nat) (id : TypeId) (b : Bool),
    g.climb ancestor rounds id = some b →
      (b = true ↔ Relation.ReflTransGen g.Extends id ancestor) := by
  intro rounds
  induction rounds with
  | zero =>
    intro id b h
    cases h
  | succ rounds ih =>
    intro id b h
    rw [climb] at h
    by_cases hid : id = ancestor
    · rw [if_pos hid] at h
      cases h
      rw [hid]
      exact iff_of_true rfl .refl
    · rw [if_neg hid] at h
      constructor
      · intro hb
        cases hnext : (g.get id).superclass? with
        | none =>
          rw [hnext] at h
          cases h
          cases hb
        | some parent =>
          rw [hnext] at h
          exact .head hnext ((ih parent b h).mp hb)
      · intro hreach
        obtain rfl | ⟨parent, hnext, hrest⟩ := hreach.cases_head
        · exact absurd rfl hid
        · have hlink : (g.get id).superclass? = some parent := hnext
          rw [hlink] at h
          exact (ih parent b h).mpr hrest

theorem Acyclic.climb_ends (hg : g.Acyclic) (ancestor id : TypeId) :
    ∃ b, g.climb ancestor (g.size + 1) id = some b := by
  refine hg.ascend (P := fun rounds id => ∃ b, g.climb ancestor rounds id = some b) ?_ id
  intro rounds id hparent
  rw [climb]
  by_cases hid : id = ancestor
  · exact ⟨true, if_pos hid⟩
  · rw [if_neg hid]
    cases hnext : (g.get id).superclass? with
    | none => exact ⟨false, rfl⟩
    | some parent => exact hparent parent hnext

theorem climb_of_cycle (hancestor : ¬ g.Has ancestor) : ∀ (rounds : Nat) (id : TypeId),
    Relation.TransGen g.Extends id id → g.climb ancestor rounds id = none := by
  intro rounds
  induction rounds with
  | zero => exact fun _ _ => rfl
  | succ rounds ih =>
    intro id hcycle
    obtain ⟨parent, hnext, hback⟩ := Relation.TransGen.head'_iff.mp hcycle
    have hne : id ≠ ancestor := fun h => hancestor (h ▸ hnext.has)
    have hlink : (g.get id).superclass? = some parent := hnext
    rw [climb, if_neg hne, hlink]
    exact ih parent (Relation.TransGen.tail' hback hnext)

theorem Acyclic.climbable (hg : g.Acyclic) : g.Climbable where
  acyclic := hg
  tells _ _ := inherits_iff hg
  ends id ancestor := by
    obtain ⟨b, hb⟩ := hg.climb_ends ancestor id
    have hsame : b = true ↔ g.inherits id ancestor = true :=
      (climb_exact _ id b hb).trans (inherits_iff hg).symm
    rw [hb, Bool.eq_iff_iff.mpr hsame]

theorem climbable_iff :
    g.Climbable ↔ ∀ id ∈ g.ids, (g.climb ⟨g.size⟩ (g.size + 1) id).isSome = true := by
  constructor
  · intro h id _
    rw [h.ends]
    rfl
  · intro h
    refine Acyclic.climbable fun id hcycle => ?_
    obtain ⟨parent, hnext, -⟩ := Relation.TransGen.head'_iff.mp hcycle
    have hoff : ¬ g.Has ⟨g.size⟩ := Nat.lt_irrefl _
    have hend := h id (mem_ids.mpr hnext.has)
    rw [climb_of_cycle hoff _ id hcycle] at hend
    cases hend

instance (g : TypeGraph) : Decidable g.Climbable := decidable_of_iff _ climbable_iff.symm

end SchemaBeans.TypeGraph
