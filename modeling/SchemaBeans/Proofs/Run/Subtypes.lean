import Mathlib.Tactic.MkIffOfInductiveProp
import SchemaBeans.Proofs.Generation.Subtypes
import SchemaBeans.Proofs.Run.Steps

/-! # Subtypes of a run

In every state of a run the types that an interface lists implement it. Those that a class lists
extend it as well, apart from the ones whose schemas name a superclass themselves: such a type is
listed when it is met below the class before its own superclass is known, and is not taken off the
list when it is given that one. -/
namespace SchemaBeans.Run

open Drafting

variable {ctx : Context} {d : Draft} {steps : List Step} {marker child : TypeId}

/-- The schema of the type has an `extends` member, and the schema there generates the supertype. -/
def ExtendsBySchema (ctx : Context) (d : Draft) (type : TypeId) (supertype : TypeRef) : Prop :=
  ∃ id found fuel, d.store.id? (d.graph.get type).place = some id ∧
    (d.store.node id).keywords.superclass.isSome = true ∧ d.store.Found id ["extends"] found ∧
    ∀ request, (dispatch ctx fuel request found.id).run d = (.ok supertype, d)

theorem Reaches.enlisted (h : Reaches ctx {} steps d) : Enlisted ctx d :=
  (h.invariant_acts (P := Enlisted ctx) consistent_empty enlisted_empty enlisted_empty
    fun _ _ _ hd hlisted ha => ha.enlisted hd hlisted).2

theorem extendsBySchema_of_stated (hd : Consistent d) {supertype : TypeRef}
    (h : Stated ctx d child supertype) : ExtendsBySchema ctx d child supertype := by
  obtain ⟨id, found, fuel, hid, hsuper, hfound, ht⟩ := h
  refine ⟨id, found, fuel, hid, hsuper, hfound, fun request => ?_⟩
  exact ht.repeats hd.store hd.placed hd.declared (hfound.has hd.store) request (Nat.le_refl _)

/-- A listed type implements the interface that lists it. It extends the class that lists it, or the
type that its own schema says it extends. -/
theorem subtypes_related (h : Reaches ctx {} steps d)
    (hlisted : child ∈ (d.graph.get marker).subtypes) :
    ((d.graph.get marker).kind = .interface → marker ∈ (d.graph.get child).interfaces) ∧
    ((d.graph.get marker).kind ≠ .interface → ∃ supertype,
      (d.graph.get child).supertype = some supertype ∧
        (supertype = .generated marker ∨ ExtendsBySchema ctx d child supertype)) := by
  have hd := h.consistent consistent_empty
  have hrelated := h.enlisted marker child hlisted
  refine ⟨hrelated.interface, fun hclass => ?_⟩
  obtain ⟨supertype, hsuper, hwhy⟩ := hrelated.superclass hclass
  exact ⟨supertype, hsuper, hwhy.imp_right (extendsBySchema_of_stated hd)⟩

-- A class that extends the class of a property whose union it is a branch of.
private def listedContext : Context := ⟨{}, ⟨[], []⟩⟩

private def refTo (document : String) : Json := .object [("$ref", .string document)]

private def listedDocuments : List (String × Json) :=
  [("mem:///parent.json", .object [("type", .string "object"),
      ("properties", .object [("u", refTo "union.json")])]),
    ("mem:///union.json", .object [
      ("properties", .object [("id", .object [("type", .string "string")])]),
      ("oneOf", .array [refTo "child.json", refTo "plain.json"])]),
    ("mem:///plain.json", .object [("type", .string "object")]),
    ("mem:///child.json", .object [("type", .string "object"), ("extends", refTo "parent.json")])]

private def listedSteps : List Step :=
  listedDocuments.map (fun (document, content) => .register document content) ++
    [.generate (.root "mem:///child.json")]

private def listedStart : Draft :=
  { store := listedDocuments.foldl (fun st (document, content) => st.register document content) {} }

private def listedDraft : Draft :=
  ((Step.generate (.root "mem:///child.json")).action listedContext |>.run listedStart).2

@[mk_iff] private structure ListedOutcome : Prop where
  answer : ((Step.generate (.root "mem:///child.json")).action listedContext |>.run
    listedStart).1.toOption = some ()
  names : (List.range listedDraft.graph.size).map (fun i => (listedDraft.graph.get ⟨i⟩).name) =
    ["Child", "Parent", "Union", "Plain"]
  subtypes : (listedDraft.graph.get ⟨2⟩).subtypes = [⟨0⟩, ⟨3⟩]
  kind : (listedDraft.graph.get ⟨2⟩).kind = .bean
  child : (listedDraft.graph.get ⟨0⟩).supertype = some (.generated ⟨1⟩)
  plain : (listedDraft.graph.get ⟨3⟩).supertype = some (.generated ⟨2⟩)

private theorem listed_outcome : ListedOutcome :=
  listedOutcome_iff.mpr (by decide +kernel)

private theorem listed_succeeds : Succeeds listedContext {} listedSteps listedDraft :=
  .step rfl (.step rfl (.step rfl (.step rfl (.of_run _ listed_outcome.answer (.done _)))))

theorem subtypes_related_child :
    ⟨0⟩ ∈ (listedDraft.graph.get ⟨2⟩).subtypes ∧
    ExtendsBySchema listedContext listedDraft ⟨0⟩ (.generated ⟨1⟩) := by
  have hlisted : ⟨0⟩ ∈ (listedDraft.graph.get ⟨2⟩).subtypes := by
    rw [listed_outcome.subtypes]
    decide
  have hclass : (listedDraft.graph.get ⟨2⟩).kind ≠ .interface := by
    rw [listed_outcome.kind]
    decide
  obtain ⟨supertype, hsuper, hwhy⟩ := (subtypes_related listed_succeeds.reaches hlisted).2 hclass
  obtain rfl := Option.some.inj (listed_outcome.child.symm.trans hsuper)
  exact ⟨hlisted, hwhy.resolve_left (by decide)⟩

/-- A class that lists two types and is extended by the second one only. -/
theorem subtypes_not_extending : Succeeds listedContext {} listedSteps listedDraft ∧
    (listedDraft.graph.get ⟨2⟩).subtypes = [⟨0⟩, ⟨3⟩] ∧
    (listedDraft.graph.get ⟨2⟩).kind = .bean ∧
    (listedDraft.graph.get ⟨0⟩).supertype = some (.generated ⟨1⟩) ∧
    (listedDraft.graph.get ⟨3⟩).supertype = some (.generated ⟨2⟩) :=
  ⟨listed_succeeds, listed_outcome.subtypes, listed_outcome.kind, listed_outcome.child,
    listed_outcome.plain⟩

end SchemaBeans.Run
