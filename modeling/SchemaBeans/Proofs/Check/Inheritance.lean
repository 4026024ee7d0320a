import SchemaBeans.Proofs.Check.Cascade
import SchemaBeans.Proofs.TypeGraph.Climbing

/-! # Checks of inherited properties

A check goes up to the superclass with the same value first, then it takes the properties of the
class itself, and after each property it goes down into the value. Going down makes the value
smaller, but nothing bounds the way up: on a cycle of superclasses a check goes on for ever. In
an acyclic graph it ends, and reports for each class from the topmost one down what its own
properties report. -/
namespace SchemaBeans.Check

open Relation TypeGraph

variable {g : TypeGraph} {d : Decorations} {type parent ancestor : TypeId} {target : Target}
  {property : Property} {v : Json} {path : String} {line : List TypeId}

/-- What the properties of the class itself report, those of its superclasses left aside. -/
def ownViolations (g : TypeGraph) (d : Decorations) (type : TypeId) (v : Json) (path : String) :
    List Violation :=
  (g.get type).properties.zipIdx.flatMap fun (property, i) =>
    valueViolations (d.on (.property type i)) (memberPath path property.key)
        (v.member? property.key) ++
      below g d (.property type i) property (memberPath path property.key) (v.member? property.key)

theorem violations_lineage (g : TypeGraph) (d : Decorations) (type : TypeId) (v : Json)
    (path : String) : violations g d type v path =
      (g.lineage type).reverse.flatMap fun owner => ownViolations g d owner v path := by
  rw [violations_eq, allProperties, List.flatMap_assoc]
  refine congrArg (fun report => (g.lineage type).reverse.flatMap report) (funext fun owner => ?_)
  rw [List.flatMap_map]
  rfl

theorem violations_of_top (h : (g.get type).superclass? = none) :
    violations g d type v path = ownViolations g d type v path := by
  rw [violations_lineage, lineage_of_top h, List.reverse_singleton, List.flatMap_singleton]

theorem violations_of_extends (hg : g.Acyclic) (h : g.Extends type parent) :
    violations g d type v path = violations g d parent v path ++ ownViolations g d type v path := by
  rw [violations_lineage, violations_lineage, hg.lineage_of_extends h, List.reverse_cons,
    List.flatMap_append, List.flatMap_singleton]

theorem violations_isPrefix (hg : g.Acyclic) (h : ReflTransGen g.Extends type ancestor) :
    violations g d ancestor v path <+: violations g d type v path := by
  induction h using ReflTransGen.head_induction_on with
  | refl => exact List.prefix_rfl
  | head hlink _ ih =>
    rw [violations_of_extends hg hlink]
    exact ih.trans (List.prefix_append _ _)

def gather {α : Type} (report : α → Option (List Violation)) : List α → Option (List Violation)
  | [] => some []
  | entry :: rest => do
    let first ← report entry
    let others ← gather report rest
    some (first ++ others)

theorem gather_some {α : Type} {report : α → Option (List Violation)} {f : α → List Violation} :
    ∀ {entries : List α}, (∀ entry ∈ entries, report entry = some (f entry)) →
      gather report entries = some (entries.flatMap f)
  | [], _ => rfl
  | entry :: rest, h => by
    obtain ⟨hfirst, hothers⟩ := List.forall_mem_cons.mp h
    rw [gather, hfirst, gather_some hothers]
    rfl

def descend (visit : TypeId → Json → String → Option (List Violation)) (d : Decorations)
    (target : Target) (property : Property) (path : String) : Option Json → Option (List Violation)
  | none => some []
  | some v =>
    match nestedType? (d.on target) property, v with
    | some type, .array items =>
      if property.type.isCollection then
        gather (fun (item, i) => visit type item (itemPath path i)) items.zipIdx
      else some []
    | some type, .object members => visit type (.object members) path
    | _, _ => some []

/-- Checks an instance of a type, first as one of its superclass; there is no answer if the rounds
run out. -/
def walk (g : TypeGraph) (d : Decorations) : Nat → TypeId → Json → String → Option (List Violation)
  | 0, _, _, _ => none
  | rounds + 1, type, v, path => do
    let inherited ← match (g.get type).superclass? with
      | some parent => walk g d rounds parent v path
      | none => some []
    let own ← gather (fun (property, i) => do
        let path := memberPath path property.key
        let value := v.member? property.key
        let nested ← descend (walk g d rounds) d (.property type i) property path value
        some (valueViolations (d.on (.property type i)) path value ++ nested))
      (g.get type).properties.zipIdx
    some (inherited ++ own)

theorem descend_some {visit : TypeId → Json → String → Option (List Violation)}
    (hvisit : ∀ part type path, part.size < v.size →
      visit type part path = some (violations g d type part path)) (key : String) :
    descend visit d target property path (v.member? key) =
      some (below g d target property path (v.member? key)) := by
  cases hfound : v.member? key with
  | none => rfl
  | some found =>
    have hsmaller := Json.size_member_lt hfound
    unfold descend below
    cases hnested : nestedType? (d.on target) property with
    | none => rfl
    | some type =>
      cases found with
      | array items =>
        cases hcollection : property.type.isCollection with
        | false => rfl
        | true =>
          refine gather_some fun entry hentry => hvisit _ _ _ ?_
          exact (Json.size_item_lt (List.fst_mem_of_mem_zipIdx hentry)).trans hsmaller
      | object members => exact hvisit _ _ _ hsmaller
      | _ => rfl

theorem walk_succ {rounds : Nat} (hg : g.Acyclic)
    (hparent : ∀ parent, g.Extends type parent →
      walk g d rounds parent v path = some (violations g d parent v path))
    (hbelow : ∀ part type path, part.size < v.size →
      walk g d rounds type part path = some (violations g d type part path)) :
    walk g d (rounds + 1) type v path = some (violations g d type v path) := by
  have hown : gather (fun (entry : Property × Nat) => do
      let path := memberPath path entry.1.key
      let value := v.member? entry.1.key
      let nested ← descend (walk g d rounds) d (.property type entry.2) entry.1 path value
      some (valueViolations (d.on (.property type entry.2)) path value ++ nested))
        (g.get type).properties.zipIdx = some (ownViolations g d type v path) := by
    refine gather_some fun entry _ => ?_
    dsimp only
    rw [descend_some hbelow]
    rfl
  rw [walk]
  cases hlink : (g.get type).superclass? with
  | none =>
    rw [violations_of_top hlink]
    simp only [hown]
    rfl
  | some parent =>
    rw [violations_of_extends hg hlink]
    simp only [hparent parent hlink, hown]
    rfl

/-- Without cycles every check ends. The induction is on the size of the value and, for one value,
on the way up: each value below has the rounds that the way up for its container leaves. -/
theorem walk_ends (hg : g.Acyclic) (d : Decorations) (type : TypeId) (v : Json) (path : String) :
    ∀ rounds, v.size * (g.size + 1) ≤ rounds →
      walk g d rounds type v path = some (violations g d type v path) := by
  induction hn : v.size using Nat.strong_induction_on generalizing v type path with
  | _ n ih =>
    subst hn
    obtain ⟨smaller, hsize⟩ : ∃ smaller, v.size = smaller + 1 := by
      refine ⟨v.size - 1, ?_⟩
      have hpos : 0 < v.size := by cases v <;> simp [Json.size]
      omega
    have hsplit : v.size * (g.size + 1) = smaller * (g.size + 1) + (g.size + 1) := by
      rw [hsize, Nat.succ_mul]
    have hbelow : ∀ rounds, smaller * (g.size + 1) ≤ rounds → ∀ part type path,
        part.size < v.size → walk g d rounds type part path =
          some (violations g d type part path) := by
      intro rounds hrounds part type path hpart
      have hfew := Nat.mul_le_mul_right (g.size + 1) (show part.size ≤ smaller by omega)
      exact ih part.size hpart type part path rfl rounds (hfew.trans hrounds)
    rw [hsplit]
    refine hg.ascend (P := fun up type => ∀ rounds, smaller * (g.size + 1) + up ≤ rounds →
      walk g d rounds type v path = some (violations g d type v path)) ?_ type
    intro up type hparent rounds hrounds
    obtain ⟨rounds, rfl⟩ : ∃ fewer, rounds = fewer + 1 := ⟨rounds - 1, by omega⟩
    exact walk_succ hg (fun parent hlink => hparent parent hlink rounds (by omega))
      (hbelow rounds (by omega))

theorem walk_of_cycle (hcycle : TransGen g.Extends type type) (d : Decorations) (v : Json)
    (path : String) : ∀ rounds, walk g d rounds type v path = none := by
  intro rounds
  induction rounds generalizing type with
  | zero => rfl
  | succ rounds ih =>
    obtain ⟨parent, hlink, hback⟩ := TransGen.head'_iff.mp hcycle
    have hlink' : (g.get type).superclass? = some parent := hlink
    rw [walk, hlink']
    simp only [ih (TransGen.tail' hback hlink)]
    rfl

theorem walk_ends_iff : (∀ type v path, ∃ rounds, (walk g d rounds type v path).isSome = true) ↔
    g.Acyclic := by
  constructor
  · intro hends type hcycle
    obtain ⟨rounds, hsome⟩ := hends type .null ""
    rw [walk_of_cycle hcycle] at hsome
    cases hsome
  · intro hg type v path
    exact ⟨_, Option.isSome_iff_exists.mpr ⟨_, walk_ends hg d type v path _ (Nat.le_refl _)⟩⟩

/-- In an acyclic graph every check ends, after no more rounds than the value has parts times one
more than there are types. It reports what the properties of each class themselves report, from the
topmost superclass down to the type, so what it reports for a superclass comes first for the
subclass. -/
theorem inherited_checked (hg : g.Acyclic) (d : Decorations) (type : TypeId) (v : Json)
    (path : String) :
    (∀ rounds, v.size * (g.size + 1) ≤ rounds →
      walk g d rounds type v path = some (violations g d type v path)) ∧
    (∃ line, g.Descends line type ∧
      violations g d type v path = line.flatMap fun owner => ownViolations g d owner v path) ∧
    ∀ ancestor, ReflTransGen g.Extends type ancestor →
      violations g d ancestor v path <+: violations g d type v path := by
  obtain ⟨line, hline⟩ := hg.descends type
  refine ⟨walk_ends hg d type v path, ⟨line, hline, ?_⟩, fun ancestor => violations_isPrefix hg⟩
  rw [violations_lineage, hline.lineage hg]

private def heirs : TypeGraph where
  types := #[
    { name := "A", properties := [{ key := "x", name := "x", type := .any, required := true }] },
    { name := "B", supertype := some (.generated ⟨0⟩),
      properties := [{ key := "y", name := "y", type := .any, required := true },
        { key := "next", name := "next", type := .generated ⟨1⟩ }] }]

private def heirMarks : Decorations :=
  [(.property ⟨0⟩ 0, .notNull), (.property ⟨1⟩ 0, .notNull), (.property ⟨1⟩ 1, .valid)]

private def heirValue : Json := .object [("next", .object [("y", .bool true)])]

private theorem heirs_climbable : heirs.Climbable := by decide

theorem inherited_checked_heir :
    violations heirs heirMarks ⟨1⟩ heirValue "" =
      [⟨"x", "must not be null"⟩, ⟨"y", "must not be null"⟩, ⟨"next.x", "must not be null"⟩] ∧
    violations heirs heirMarks ⟨0⟩ heirValue "" <+: violations heirs heirMarks
    ⟨1⟩ heirValue "" := by
  obtain ⟨hends, -, hprefix⟩ := inherited_checked heirs_climbable.acyclic heirMarks ⟨1⟩ heirValue ""
  have hwalk : walk heirs heirMarks 9 ⟨1⟩ heirValue "" = some
      [⟨"x", "must not be null"⟩, ⟨"y", "must not be null"⟩, ⟨"next.x", "must not be null"⟩] := by
    decide +kernel
  have hlink : heirs.Extends ⟨1⟩ ⟨0⟩ := by decide
  exact ⟨Option.some.inj ((hends 9 (by decide)).symm.trans hwalk), hprefix ⟨0⟩ (.single hlink)⟩

end SchemaBeans.Check
