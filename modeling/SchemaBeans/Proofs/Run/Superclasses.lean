import SchemaBeans.Proofs.Generation.Watching
import SchemaBeans.Proofs.Run.Steps

/-! # Superclasses while a run builds its types

The check for a circular superclass is a loop without a bound, and it is made while the very
types on the chain are still being filled. It comes to its answer in every state of every run,
those inside a step included, and a step that fails or is endless makes no exception. -/
namespace SchemaBeans.Run

open Drafting

variable {ctx : Context} {d : Draft} {steps : List Step}

/-- No type of a run is on its own chain of superclasses, and every look through a chain comes to an
end and finds exactly what is on it. A watch over this, kept at every lookup that a generation
makes, never stops one. -/
theorem superclass_chains_end (h : Reaches ctx {} steps d) :
    d.graph.Climbable ∧
      (∀ fault place, (generateWatched ctx (minding fault) (depth ctx) place).run d =
        (generate ctx place).run d) ∧
      ∀ fault levels place, (generateWatched ctx (minding fault) levels place).run d =
        (generateWatched ctx (pure ()) levels place).run d := by
  have hacyclic := (h.consistent consistent_empty).acyclic
  refine ⟨hacyclic.climbable, fun fault place => ?_, fun fault levels place => ?_⟩
  · rw [← generateWatched_pure]
    exact (generateWatched_agrees fault _ place d hacyclic).1
  · exact (generateWatched_agrees fault levels place d hacyclic).1

-- A class that extends another one, and a union with properties of its own that lists them both.
private def branchContext : Context := ⟨{}, ⟨[], []⟩⟩

private def branchRoot : Json :=
  .object [("type", .string "object"),
    ("extends", .object [("$ref", .string "base.json")]),
    ("properties", .object [("kin", .object [("$ref", .string "kin.json")])])]

private def branchBase : Json := .object [("type", .string "object")]

private def branchKin : Json :=
  .object [("properties", .object [("id", .object [("type", .string "string")])]),
    ("oneOf", .array [.object [("$ref", .string "leaf.json")],
      .object [("$ref", .string "base.json")]])]

private def branchSteps : List Step :=
  [.register "mem:///leaf.json" branchRoot, .register "mem:///base.json" branchBase,
    .register "mem:///kin.json" branchKin, .generate (.root "mem:///leaf.json")]

private def branchStart : Draft :=
  { store := ((({} : Store).register "mem:///leaf.json" branchRoot).register "mem:///base.json"
      branchBase).register "mem:///kin.json" branchKin }

private def branchDraft : Draft :=
  ((Step.generate (.root "mem:///leaf.json")).action branchContext |>.run branchStart).2

private theorem branch_reaches : Reaches branchContext {} branchSteps branchDraft :=
  .step (r := .ok ()) rfl (by simp) (.step (r := .ok ()) rfl (by simp)
    (.step (r := .ok ()) rfl (by simp) (.of_run _ (by decide +kernel) (.done _))))

theorem superclass_chains_end_leaf : branchDraft.graph.Extends ⟨0⟩ ⟨1⟩ ∧
    branchDraft.graph.Extends ⟨1⟩ ⟨2⟩ ∧ branchDraft.graph.Climbable :=
  ⟨by decide +kernel, by decide +kernel, (superclass_chains_end branch_reaches).1⟩

end SchemaBeans.Run
