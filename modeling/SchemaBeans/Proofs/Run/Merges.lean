import Mathlib.Tactic.MkIffOfInductiveProp
import SchemaBeans.Proofs.Generation.Composition
import SchemaBeans.Proofs.Generation.Cycles
import SchemaBeans.Proofs.Generation.Termination
import SchemaBeans.Proofs.Run.Steps

/-! # Merges in a run

A merge comes to an end in every state of a run. It refuses a schema that is a member of itself, and
else only one that an earlier merge left open when it failed: a merge that fails half-way leaves its
schemas on the stack, where the next one finds them. -/
namespace SchemaBeans.Run

open Drafting Relation

variable {ctx : Context} {d e : Draft} {steps : List Step} {id : NodeId}

theorem Step.balanced (step : Step) (hstep : step ≠ .reset) : Balanced (step.action ctx) :=
  Stepwise.any_action (P := Balanced)
    { pure := .pure
      throw _ _ := Follows.throw
      bind := .bind
      lift _ := .lift _
      register _ := .write fun _ => rfl
      generate := (compositional_balanced ctx).generate } step hstep

/-- As long as nothing fails, no merge is open between two steps. -/
theorem Succeeds.merging (h : Succeeds ctx d steps e) (hd : d.merging = []) : e.merging = [] := by
  induction h with
  | done => exact hd
  | @step d e f step rest hrun _ ih =>
    refine ih ?_
    by_cases hstep : step = .reset
    · subst hstep
      cases hrun
      rfl
    · exact ((step.balanced hstep d).success hrun).2.trans hd

/-- A merge that refuses a place has come to it, by members that are merged. The schema there is a
member of itself, or it was open before; and if none was open, as in a run in which nothing failed,
it is a member of itself. With enough fuel a merge ends, if no document has a `#` in its name. -/
theorem merge_exact (h : Reaches ctx {} steps d) (hid : d.store.Has id) :
    (∀ f fault e place, (mergeAllOf ctx f id).run d = (.error fault, e) → fault.Inclusion place →
      e.store.Returns d.merging id place ∧ (d.merging = [] →
        ∃ m, ReflTransGen e.store.Member id m ∧ (e.store.node m).location = place ∧
          TransGen e.store.Member m m)) ∧
      (Succeeds ctx {} steps d → d.merging = []) ∧
      ((∀ other, d.store.Has other → '#' ∉ (d.store.node other).location.document.toList) →
        ∃ enough, ∀ f, enough ≤ f → ((mergeAllOf ctx f id).run d).1 ≠ .error .endless) := by
  have hs := (h.consistent consistent_empty).store
  refine ⟨fun f fault e place hrun hplace => ?_, fun hsucceeds => hsucceeds.merging rfl,
    mergeAllOf_ends ctx hs hid⟩
  have hreturns := mergeAllOf_returns f id d hs hid fault e hrun place hplace
  refine ⟨hreturns, fun hnone => ?_⟩
  obtain ⟨m, hpath, hm, hcycle⟩ := hreturns
  rw [hnone] at hcycle
  exact ⟨m, hpath, hm, hcycle.resolve_left List.not_mem_nil⟩

-- A schema with a member in a document that is not there yet. Its merge fails and leaves it on
-- the stack, so that it is refused when the document is there, although nothing leads back to
-- it.
private def retryContext : Context := ⟨{}, ⟨[], []⟩⟩

private def retryPlace : Location := .root "mem:///a.json"

private def retrySchema : Json :=
  .object [("allOf", .array [.object [("$ref", .string "b.json")]])]

private def retryMember : Json := .object [("type", .string "object")]

private def retrySteps : List Step :=
  [.register "mem:///a.json" retrySchema, .generate retryPlace,
    .register "mem:///b.json" retryMember]

private def retryStart : Draft := { store := ({} : Store).register "mem:///a.json" retrySchema }

private def retryFailed : Draft :=
  ((Step.generate retryPlace).action retryContext |>.run retryStart).2

private def retryDraft : Draft :=
  { retryFailed with store := retryFailed.store.register "mem:///b.json" retryMember }

private def retryRun : Except Fault NodeId × Draft :=
  (mergeAllOf retryContext 2 ⟨0⟩).run retryDraft

private def freshRun : Except Fault NodeId × Draft :=
  (mergeAllOf retryContext 2 ⟨0⟩).run { retryDraft with merging := [] }

private def refuses (place : Location) : Except Fault NodeId → Bool
  | .error (.unsupported other .allOfIncludesItself) => other == place
  | _ => false

private theorem eq_error_of_refuses {place : Location} {r : Except Fault NodeId}
    (h : refuses place r = true) : r = .error (.unsupported place .allOfIncludesItself) := by
  unfold refuses at h
  split at h
  · rw [eq_of_beq h]
  · cases h

/-- What the runs come to. -/
@[mk_iff] private structure RetryOutcome : Prop where
  first : isEndless ((Step.generate retryPlace).action retryContext |>.run retryStart).1 = false
  refused : refuses retryPlace retryRun.1 = true
  merging : retryDraft.merging = [⟨0⟩]
  size : retryDraft.store.nodes.size = 1
  shape : (retryDraft.store.node ⟨0⟩).shape = .allOf
  whole : '#' ∉ (retryDraft.store.node ⟨0⟩).location.document.toList
  members : (freshRun.2.store.nodes.toList.map fun node =>
    (node.keywords.allOf.getD []).length) = [1, 0, 0]
  known : freshRun.2.store.id? ((freshRun.2.store.node ⟨0⟩).location.below
    ["allOf", toString 0]) = some ⟨1⟩

private theorem retry_reaches (h : RetryOutcome) :
    Reaches retryContext {} retrySteps retryDraft := by
  have hlast : Reaches retryContext retryFailed [.register "mem:///b.json" retryMember]
      retryDraft := .step (r := .ok ()) rfl (by simp) (.done _)
  unfold retryFailed at hlast
  exact .step (r := .ok ()) rfl (by simp) (.of_run _ h.first hlast)

private theorem retry_refuses (h : RetryOutcome) : ∃ fault, fault.Inclusion retryPlace ∧
    (mergeAllOf retryContext 2 ⟨0⟩).run retryDraft = (.error fault, retryRun.2) :=
  ⟨_, rfl, run_of_fst (eq_error_of_refuses h.refused)⟩

private theorem retry_has (h : RetryOutcome) : retryDraft.store.Has ⟨0⟩ := by
  rw [Store.Has, h.size]
  exact Nat.one_pos

/-- All that a merge finds when nothing is on the stack: one member, which has none itself. -/
private theorem fresh_member (h : RetryOutcome) {a b : NodeId}
    (hmember : freshRun.2.store.Member a b) : a = ⟨0⟩ ∧ b = ⟨1⟩ := by
  have hcount : ∀ i, ((freshRun.2.store.node ⟨i⟩).keywords.allOf.getD []).length =
      ([1, 0, 0] : List Nat)[i]?.getD 0 := by
    intro i
    rw [← h.members, List.getElem?_map, Array.getElem?_toList, Store.node,
      Array.getD_eq_getD_getElem?]
    cases freshRun.2.store.nodes[i]? <;> rfl
  obtain ⟨index, found, hindex, hfound, rfl, -⟩ := hmember
  rcases a with ⟨i⟩
  rw [hcount] at hindex
  rcases i with _ | _ | _ | i
  · obtain rfl : index = 0 := Nat.lt_one_iff.mp hindex
    exact ⟨rfl, Option.some.inj (hfound.known.symm.trans h.known)⟩
  · cases hindex
  · cases hindex
  · simp at hindex

private theorem retry_outcome : RetryOutcome :=
  retryOutcome_iff.mpr (by decide +kernel)

theorem merge_exact_retry : retryRun.2.store.Returns [⟨0⟩] ⟨0⟩ retryPlace ∧
    ∃ enough, ∀ f, enough ≤ f →
      ((mergeAllOf retryContext f ⟨0⟩).run retryDraft).1 ≠ .error .endless := by
  have outcome := retry_outcome
  obtain ⟨fault, hplace, hrun⟩ := retry_refuses outcome
  obtain ⟨hexact, -, hends⟩ := merge_exact (retry_reaches outcome) (retry_has outcome)
  refine ⟨outcome.merging ▸ (hexact _ _ _ _ hrun hplace).1, hends fun other hother => ?_⟩
  obtain rfl : other = ⟨0⟩ := by
    rcases other with ⟨i⟩
    simp only [Store.Has, outcome.size, Nat.lt_one_iff] at hother
    rw [hother]
  exact outcome.whole

/-- A merge may refuse a schema that is no member of itself. -/
theorem merge_refuses_open : ¬ ∀ (ctx : Context) (steps : List Step) (d e u : Draft) (id : NodeId)
    (f : Nat) (fault : Fault) (place : Location) (r : Except Fault NodeId),
    Reaches ctx {} steps d → d.store.Has id → (d.store.node id).shape = .allOf →
    (mergeAllOf ctx f id).run d = (.error fault, e) → fault.Inclusion place →
    (mergeAllOf ctx f id).run { d with merging := [] } = (r, u) →
      ∃ m, ReflTransGen u.store.Member id m ∧ (u.store.node m).location = place ∧
        TransGen u.store.Member m m := by
  intro h
  have outcome := retry_outcome
  obtain ⟨fault, hplace, hrun⟩ := retry_refuses outcome
  have hfresh : (mergeAllOf retryContext 2 ⟨0⟩).run { retryDraft with merging := [] } =
      (freshRun.1, freshRun.2) := run_of_fst (by rw [freshRun])
  obtain ⟨m, -, -, hcycle⟩ := h _ _ _ _ _ _ _ _ _ _ (retry_reaches outcome)
    (retry_has outcome) outcome.shape hrun hplace hfresh
  obtain ⟨first, hfirst, hback⟩ := TransGen.head'_iff.mp hcycle
  obtain ⟨rfl, rfl⟩ := fresh_member outcome hfirst
  rcases ReflTransGen.cases_head hback with heq | ⟨next, hnext, -⟩
  · cases heq
  · cases (fresh_member outcome hnext).1

end SchemaBeans.Run
