import SchemaBeans.Proofs.TypeGraph.Naming

/-! # Types inside one another

The way outwards from a type ends at one with a source file of its own. All types on the way are in
one package, and none of them is called like one around it. -/
namespace SchemaBeans.TypeGraph

variable {g h : TypeGraph} {id owner : TypeId}

/-- What holds of a type if it holds of the type around it holds of all types. -/
theorem Nests.induction {P : TypeId → Prop} (hg : g.Nests)
    (hstep : ∀ id, g.Has id → (∀ owner, (g.get id).enclosing = some owner → P owner) → P id)
    (hid : g.Has id) : P id := by
  have hbelow : ∀ (n : Nat) (id : TypeId), id.index < n → g.Has id → P id := by
    intro n
    induction n with
    | zero => exact fun _ hlt => absurd hlt (Nat.not_lt_zero _)
    | succ n ih =>
      intro id hlt hid
      refine hstep id hid fun owner howner => ih owner ?_ (hg.has_owner hid howner)
      have := hg.younger id owner hid howner
      omega
  exact hbelow _ id (Nat.lt_succ_self _) hid

theorem outermost_eq (hg : g.Nests) (hid : g.Has id) :
    g.outermost id = match (g.get id).enclosing with
      | some owner => g.outermost owner
      | none => id := by
  rw [outermost, outwards_eq hg hid]
  cases howner : (g.get id).enclosing with
  | none => rfl
  | some owner =>
    simp only
    rw [List.getLast?_cons_of_ne_nil (outwards_ne_nil g owner), outermost,
      List.getLast?_eq_some_getLast (outwards_ne_nil g owner)]
    rfl

theorem outermost_nested (hg : g.Nests) (hid : g.Has id)
    (howner : (g.get id).enclosing = some owner) :
    g.outermost id = g.outermost owner := by
  rw [outermost_eq hg hid, howner]

theorem outermost_topLevel (hg : g.Nests) (hid : g.Has id) (htop : (g.get id).enclosing = none) :
    g.outermost id = id := by
  rw [outermost_eq hg hid, htop]

theorem outermost_spec (hg : g.Nests) (hid : g.Has id) :
    g.Has (g.outermost id) ∧ (g.get (g.outermost id)).enclosing = none := by
  refine hg.induction (P := fun id => g.Has (g.outermost id) ∧
    (g.get (g.outermost id)).enclosing = none) (fun id hid ih => ?_) hid
  cases howner : (g.get id).enclosing with
  | none =>
    rw [outermost_topLevel hg hid howner]
    exact ⟨hid, howner⟩
  | some owner =>
    rw [outermost_nested hg hid howner]
    exact ih owner howner

theorem mem_outwards_self (hg : g.Nests) (hid : g.Has id) : id ∈ g.outwards id := by
  rw [outwards_eq hg hid]
  split <;> simp

theorem outwards_nested (hg : g.Nests) (hid : g.Has id)
    (howner : (g.get id).enclosing = some owner) :
    g.outwards id = id :: g.outwards owner := by
  rw [outwards_eq hg hid, howner]

theorem outwards_topLevel (hg : g.Nests) (hid : g.Has id) (htop : (g.get id).enclosing = none) :
    g.outwards id = [id] := by
  rw [outwards_eq hg hid, htop]

theorem outermost_of_mem_outwards (hg : g.Nests) (hid : g.Has id) {outer : TypeId}
    (h : outer ∈ g.outwards id) : g.Has outer ∧ g.outermost outer = g.outermost id := by
  refine hg.induction (P := fun id => outer ∈ g.outwards id →
    g.Has outer ∧ g.outermost outer = g.outermost id) (fun id hid ih h => ?_) hid h
  cases howner : (g.get id).enclosing with
  | none =>
    rw [outwards_topLevel hg hid howner, List.mem_singleton] at h
    subst h
    exact ⟨hid, rfl⟩
  | some owner =>
    rw [outwards_nested hg hid howner, List.mem_cons] at h
    rcases h with rfl | h
    · exact ⟨hid, rfl⟩
    · rw [outermost_nested hg hid howner]
      exact ih owner howner h

theorem outermost_mem_outwards (g : TypeGraph) (id : TypeId) : g.outermost id ∈ g.outwards id := by
  unfold outermost
  cases hlast : (g.outwards id).getLast? with
  | none => exact absurd (List.getLast?_eq_none_iff.mp hlast) (outwards_ne_nil g id)
  | some outer => exact List.mem_of_getLast? hlast

theorem mem_outwards_owner (hg : g.Nests) (hid : g.Has id) {inner : TypeId}
    (hinner : inner ∈ g.outwards id) (howner : (g.get inner).enclosing = some owner) :
    owner ∈ g.outwards id := by
  refine hg.induction (P := fun id => inner ∈ g.outwards id → owner ∈ g.outwards id)
    (fun id hid ih hinner => ?_) hid hinner
  cases hnext : (g.get id).enclosing with
  | none =>
    rw [outwards_topLevel hg hid hnext, List.mem_singleton] at hinner
    rw [hinner, hnext] at howner
    cases howner
  | some next =>
    rw [outwards_nested hg hid hnext, List.mem_cons] at hinner ⊢
    rcases hinner with rfl | hinner
    · rw [hnext] at howner
      cases howner
      exact .inr (mem_outwards_self hg (hg.has_owner hid hnext))
    · exact .inr (ih next hnext hinner)

theorem exists_nested (hg : g.Nests) (hid : g.Has id) (h : owner ∈ g.outwards id)
    (hne : id ≠ owner) : ∃ inner ∈ g.outwards id, (g.get inner).enclosing = some owner := by
  refine hg.induction (P := fun id => owner ∈ g.outwards id → id ≠ owner →
    ∃ inner ∈ g.outwards id, (g.get inner).enclosing = some owner)
    (fun id hid ih h hne => ?_) hid h hne
  cases hnext : (g.get id).enclosing with
  | none =>
    rw [outwards_topLevel hg hid hnext, List.mem_singleton] at h
    exact absurd h.symm hne
  | some next =>
    rw [outwards_nested hg hid hnext] at h ⊢
    have hrest := (List.mem_cons.mp h).resolve_left (Ne.symm hne)
    by_cases howner : next = owner
    · exact ⟨id, List.mem_cons_self, hnext.trans (congrArg some howner)⟩
    · obtain ⟨inner, hinner, heq⟩ := ih next hnext hrest howner
      exact ⟨inner, List.mem_cons_of_mem _ hinner, heq⟩

/-- The types inside a type, down to a depth, with itself. -/
def inside (g : TypeGraph) : Nat → TypeId → List TypeId
  | 0, _ => []
  | depth + 1, id => id :: (g.nested id).flatMap (inside g depth)

theorem outwards_of_mem_inside (hg : g.Nests) :
    ∀ (depth : Nat) (owner : TypeId), g.Has owner → id ∈ g.inside depth owner →
      g.Has id ∧ owner ∈ g.outwards id := by
  intro depth
  induction depth with
  | zero => exact fun _ _ h => absurd h List.not_mem_nil
  | succ depth ih =>
    intro owner howner h
    rcases List.mem_cons.mp h with rfl | h
    · exact ⟨howner, mem_outwards_self hg howner⟩
    · obtain ⟨inner, hinner, h⟩ := List.mem_flatMap.mp h
      obtain ⟨hhas, hnested⟩ := hg.mem_nested.mp hinner
      obtain ⟨hid, hmem⟩ := ih inner hhas h
      exact ⟨hid, mem_outwards_owner hg hid hmem hnested⟩

theorem index_le_of_mem_outwards (hg : g.Nests) (hid : g.Has id) {outer : TypeId}
    (h : outer ∈ g.outwards id) : outer.index ≤ id.index := by
  refine hg.induction (P := fun id => outer ∈ g.outwards id → outer.index ≤ id.index)
    (fun id hid ih h => ?_) hid h
  cases hnext : (g.get id).enclosing with
  | none =>
    rw [outwards_topLevel hg hid hnext, List.mem_singleton] at h
    rw [h]
  | some next =>
    have hlt := hg.younger id next hid hnext
    rw [outwards_nested hg hid hnext, List.mem_cons] at h
    rcases h with rfl | h
    · exact Nat.le_refl _
    · exact Nat.le_trans (ih next hnext h) (Nat.le_of_lt hlt)

theorem mem_inside_of_outwards (hg : g.Nests) (hid : g.Has id) :
    ∀ (depth : Nat) (owner : TypeId), owner ∈ g.outwards id → id.index < owner.index + depth →
      id ∈ g.inside depth owner := by
  intro depth
  induction depth with
  | zero =>
    exact fun owner h hlt => absurd (index_le_of_mem_outwards hg hid h) (Nat.not_le_of_lt hlt)
  | succ depth ih =>
    intro owner h hlt
    by_cases hne : id = owner
    · subst hne
      exact List.mem_cons_self
    · obtain ⟨inner, hinner, hnested⟩ := exists_nested hg hid h hne
      have hhas := (outermost_of_mem_outwards hg hid hinner).1
      have hstep := hg.younger inner owner hhas hnested
      refine List.mem_cons_of_mem _
        (List.mem_flatMap.mpr ⟨inner, hg.mem_nested.mpr ⟨hhas, hnested⟩, ?_⟩)
      exact ih inner hinner (by omega)

theorem mem_inside_topLevel (hg : g.Nests) (howner : g.Has owner)
    (htop : (g.get owner).enclosing = none) :
    id ∈ g.inside (g.size + 1) owner ↔ g.Has id ∧ g.outermost id = owner := by
  constructor
  · intro h
    obtain ⟨hid, hmem⟩ := outwards_of_mem_inside hg _ owner howner h
    rw [← (outermost_of_mem_outwards hg hid hmem).2, outermost_topLevel hg howner htop]
    exact ⟨hid, rfl⟩
  · rintro ⟨hid, rfl⟩
    refine mem_inside_of_outwards hg hid _ _ (outermost_mem_outwards g id) ?_
    unfold Has at hid
    omega

theorem Keeps.outwards (hk : Keeps g h) (hg : g.Nests) (hh : h.Nests) (hid : g.Has id) :
    h.outwards id = g.outwards id := by
  refine hg.induction (P := fun id => h.outwards id = g.outwards id) (fun id hid ih => ?_) hid
  rw [outwards_eq hh (hk.has hid), outwards_eq hg hid, hk.enclosing hid]
  cases howner : (g.get id).enclosing with
  | none => rfl
  | some owner => exact congrArg (id :: ·) (ih owner howner)

/-- A nested type is in the package of the type around it and not called like a type around it. -/
structure Housed (g : TypeGraph) : Prop where
  package : ∀ id owner, g.Has id → (g.get id).enclosing = some owner →
    (g.get id).package = (g.get owner).package
  apart : ∀ id owner, g.Has id → (g.get id).enclosing = some owner → ∀ outer ∈ g.outwards owner,
    (g.get outer).name ≠ (g.get id).name

theorem Housed.nested_unique (hh : g.Housed) (hg : g.Nests)
    (hnames : ∀ a b, g.Has a → g.Has b → g.qualifiedName a = g.qualifiedName b → a = b)
    {a b : TypeId} (ha : g.Has a) (hb : g.Has b) (howner : (g.get a).enclosing = some owner)
    (howner' : (g.get b).enclosing = some owner) (hname : (g.get a).name = (g.get b).name) :
    a = b := by
  refine hnames a b ha hb ?_
  rw [qualifiedName_nested hg ha howner (hh.package a owner ha howner),
    qualifiedName_nested hg hb howner' (hh.package b owner hb howner'), hname]

/-- Without a new type, all types stay where they are. -/
theorem Housed.keeps (hh : g.Housed) (hk : Keeps g h) (hsize : h.size = g.size) (hg : g.Nests) :
    h.Housed := by
  have hnests := hk.nests hsize hg
  constructor
  · intro id owner hid howner
    have hid := (has_of_size hsize).mp hid
    rw [hk.enclosing hid] at howner
    rw [hk.package hid, hk.package (hg.has_owner hid howner)]
    exact hh.package id owner hid howner
  · intro id owner hid howner outer houter
    have hid := (has_of_size hsize).mp hid
    rw [hk.enclosing hid] at howner
    have hown := hg.has_owner hid howner
    rw [hk.outwards hg hnests hown] at houter
    rw [hk.name hid, hk.name (outermost_of_mem_outwards hg hown houter).1]
    exact hh.apart id owner hid howner outer houter

def Dotless (g : TypeGraph) : Prop := ∀ id, g.Has id → '.' ∉ (g.get id).name.toList

theorem Dotless.keeps (hg : g.Dotless) (hk : Keeps g h) (hsize : h.size = g.size) : h.Dotless := by
  intro id hid
  have hid := (has_of_size hsize).mp hid
  rw [hk.name hid]
  exact hg id hid

/-- The types of a graph stand inside one another, and a qualified name leads to one of them. -/
structure Orderly (g : TypeGraph) : Prop where
  nests : g.Nests
  housed : g.Housed
  dotless : g.Dotless
  distinct : ∀ a b, g.Has a → g.Has b → g.qualifiedName a = g.qualifiedName b → a = b

theorem Orderly.keeps (hg : g.Orderly) (hk : Keeps g h) (hsize : h.size = g.size) : h.Orderly := by
  have hnests := hk.nests hsize hg.nests
  refine ⟨hnests, hg.housed.keeps hk hsize hg.nests, hg.dotless.keeps hk hsize, fun a b ha hb => ?_⟩
  have ha := (has_of_size hsize).mp ha
  have hb := (has_of_size hsize).mp hb
  rw [hk.qualifiedName hg.nests hnests ha, hk.qualifiedName hg.nests hnests hb]
  exact hg.distinct a b ha hb

end SchemaBeans.TypeGraph
