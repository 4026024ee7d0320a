import Mathlib.Tactic.MkIffOfInductiveProp
import SchemaBeans.Proofs.Generation.Additions
import SchemaBeans.Proofs.Run.Steps

/-! # Steps that fail

A step that fails is not taken back: a class that was declared before its schema turned out to be
broken stays. But every step only adds, so nothing that was there before is lost, and a step that
declares no type changes nothing of the types, the names and the waiting families. -/
namespace SchemaBeans.Run

open Drafting

variable {ctx : Context} {base least : Nat} {d e : Draft} {steps : List Step} {place : Location}

theorem Step.adding (step : Step) (hstep : step ≠ .reset) :
    Adding base least (step.action ctx) :=
  Stepwise.any_action (P := Adding base least)
    { pure := .pure
      throw _ := .throw _
      bind := .bind
      lift _ := .lift _
      register _ := .change fun _ _ _ => adds_of_same rfl rfl rfl
      generate := generate_adding } step hstep

/-- Steps only add, whether they succeed or fail, until a run starts over. -/
theorem Reaches.adds (h : Reaches ctx d steps e) (hsteps : .reset ∉ steps)
    (hbase : base ≤ d.graph.size) : Adds base d e := by
  induction h with
  | done => exact refl _
  | @step d e f step rest r hrun hends _ ih =>
    have hstep : step ≠ .reset := fun h => hsteps (by simp [h])
    have hadds : Adds base d e :=
      (step.adding hstep d (Nat.le_refl base) hbase r e hrun hends).1
    exact IsTrans.trans _ _ _ hadds
      (ih (fun h => hsteps (List.mem_cons_of_mem _ h)) (Nat.le_trans hbase hadds.size))

-- A class, and then a union of it with a class that has a property without a schema. The union
-- is declared and the class is linked to it before the fault.
private def brokenContext : Context := ⟨{}, ⟨[], []⟩⟩

private def brokenClass : Json :=
  .object [("type", .string "object"),
    ("properties", .object [("x", .object [("$ref", .string "#/missing")])])]

private def brokenUnion : Json :=
  .object [("oneOf", .array [.object [("$ref", .string "whole.json")], brokenClass])]

private def brokenSteps : List Step :=
  [.register "mem:///whole.json" (.object [("type", .string "object")]),
    .generate (.root "mem:///whole.json"), .register "mem:///broken.json" brokenUnion]

private def wholeDraft : Draft :=
  ((Step.generate (.root "mem:///whole.json")).action brokenContext |>.run
    { store := ({} : Store).register "mem:///whole.json" (.object [("type", .string "object")]) }).2

private def brokenStart : Draft :=
  { wholeDraft with store := wholeDraft.store.register "mem:///broken.json" brokenUnion }

private def brokenRun : Except Fault TypeRef × Draft :=
  (generate brokenContext (.root "mem:///broken.json")).run brokenStart

@[mk_iff] private structure BrokenOutcome : Prop where
  first : isEndless ((Step.generate (.root "mem:///whole.json")).action brokenContext |>.run
    { store := ({} : Store).register "mem:///whole.json"
        (.object [("type", .string "object")]) }).1 = false
  fails : brokenRun.1.toOption = none
  ends : isEndless brokenRun.1 = false
  before : brokenStart.graph.size = 1
  after : brokenRun.2.graph.size = 3
  linked : (brokenRun.2.graph.get ⟨0⟩).interfaces = [⟨1⟩]

private theorem broken_reaches (h : BrokenOutcome) :
    Reaches brokenContext {} brokenSteps brokenStart := by
  have hlast : Reaches brokenContext wholeDraft [.register "mem:///broken.json" brokenUnion]
      brokenStart := .step (r := .ok ()) rfl (by simp) (.done _)
  unfold wholeDraft at hlast
  exact .step (r := .ok ()) rfl (by simp) (.of_run _ h.first hlast)

theorem eq_error_of_toOption {α ε : Type} {r : Except ε α} (h : r.toOption = none) :
    ∃ fault, r = .error fault := by
  cases r with
  | ok a => cases h
  | error fault => exact ⟨fault, rfl⟩

private theorem broken_fails (outcome : BrokenOutcome) : ∃ fault, fault ≠ .endless ∧
    (generate brokenContext (.root "mem:///broken.json")).run brokenStart =
      (.error fault, brokenRun.2) := by
  obtain ⟨fault, hfault⟩ : ∃ fault, brokenRun.1 = .error fault :=
    eq_error_of_toOption outcome.fails
  have hends := outcome.ends
  have hrun : brokenRun = (.error fault, brokenRun.2) := by rw [← hfault]
  refine ⟨fault, fun h => ?_, hrun⟩
  rw [hfault, h] at hends
  cases hends

private theorem broken_outcome : BrokenOutcome :=
  brokenOutcome_iff.mpr (by decide +kernel)

end SchemaBeans.Run
