import Mathlib.Tactic.MkIffOfInductiveProp
import SchemaBeans.Proofs.Discriminator.Retention
import SchemaBeans.Proofs.Run.Inheritance

/-! # The branches of a union

A union whose branches are all objects gets a type of its own, and every branch is linked to it. An
interface takes them all. A class does not: a branch that extends another class keeps it, and one
that the class inherits from stays above it. Nothing that comes later in a run, or when it is
finished, parts a branch from the type of its union. -/
namespace SchemaBeans

/-- How a generated type stands to the type of a union that it is a branch of. It implements the
interface. It extends the class, unless it extends something else, or it extends nothing and the
class is below it. -/
structure TypeGraph.Branch (g : TypeGraph) (marker child : TypeId) : Prop where
  interface : (g.get marker).kind = .interface → marker ∈ (g.get child).interfaces
  superclass : (g.get marker).kind ≠ .interface → g.Extends child marker ∨
    (∃ other, (g.get child).supertype = some other ∧ other ≠ .generated marker) ∨
    (g.get child).supertype = none ∧ Relation.TransGen g.Below marker child

theorem Drafting.Joined.branch {g : TypeGraph} {marker child : TypeId}
    (h : Drafting.Joined g marker child) : g.Branch marker child := by
  refine ⟨h.interface, fun hclass => ?_⟩
  rw [TypeGraph.extends_iff_supertype]
  cases hsuper : (g.get child).supertype with
  | none =>
    rcases h.superclass hclass with hextends | hbelow
    · exact absurd hsuper hextends
    · exact .inr (.inr ⟨rfl, hbelow⟩)
  | some other =>
    by_cases hother : other = .generated marker
    · exact .inl (congrArg some hother)
    · exact .inr (.inl ⟨other, rfl, hother⟩)

namespace Run

open Drafting

variable {ctx : Context} {d : Draft} {steps : List Step} {settings : Settings} {m : Model}
  {marker child : TypeId}

theorem dispatch_placed (ctx : Context) {id : NodeId} {type : TypeId}
    (htype : d.graph.typeAt? (d.store.node id).location = some type) (request : Request) :
    (dispatch ctx (depth ctx d) request id).run d = (.ok (.generated type), d) := by
  rw [← Nat.sub_add_cancel (depth_pos ctx d), dispatch]
  exact dispatchWith_typed htype

/-- Finishing a run parts no branch from the type of its union. -/
theorem finish_joined (hd : Consistent d) (hm : finish settings d = .ok m)
    (h : Joined d.graph marker child) : Joined m.graph marker child := by
  have hkind := (finish_gains hd hm).kind marker
  unfold finish at hm
  obtain ⟨graph, hbind, hpure⟩ := ok_of_bind hm
  cases hpure
  exact h.ascends (Family.bindAll_ascends hbind) hkind

/-- After steps that all succeed, every branch of a union with a type of its own generates what it
generated before, and where this is another type it is a branch of the type of the union, as it is
in every model that the run is finished to. -/
theorem branches_joined (h : Succeeds ctx {} steps d) (hmarker : d.graph.Has marker)
    {union : NodeId}
    (hunion : d.store.id? (d.graph.get marker).place = some union)
    (hshape : (d.store.node union).shape = .union) :
    ∃ found, Branches d.store union found ∧ ∀ branch ∈ found, ∃ t,
      (∀ request, (dispatch ctx (depth ctx d) request branch.id).run d = (.ok t, d)) ∧
      ∀ child, t = .generated child → child ≠ marker → d.graph.Branch marker child ∧
        ∀ settings m, finish settings d = .ok m → m.graph.Branch marker child := by
  have hd := h.reaches.consistent consistent_empty
  obtain ⟨id, hid, hall⟩ := h.built.gathered marker hmarker (Nat.zero_le _)
  obtain rfl := Option.some.inj (hunion.symm.trans hid)
  obtain ⟨found, hfound, hgathers⟩ := hall hshape
  refine ⟨found, hfound, fun branch hbranch => ?_⟩
  obtain ⟨t, ht, hjoined⟩ := hgathers branch hbranch
  have hhas := hfound.has hd.store branch hbranch
  refine ⟨t, fun request => ht.repeats hd.store hd.placed hd.declared hhas request
    (Nat.le_refl _), ?_⟩
  intro child hchild hne
  have hjoins := hjoined child hchild hne
  exact ⟨hjoins.branch, fun settings m hm => (finish_joined hd hm hjoins).branch⟩

-- A union that extends its first branch. The second branch extends another class.
private def mixedContext : Context := ⟨{}, ⟨[], []⟩⟩

private def emptyClass : Json := .object [("type", .string "object")]

private def extending (parent : String) : Json :=
  .object [("type", .string "object"), ("extends", .object [("$ref", .string parent)])]

private def mixedUnion : Json :=
  .object [("properties", .object [("id", .object [("type", .string "string")])]),
    ("extends", .object [("$ref", .string "base.json")]),
    ("oneOf", .array (["base.json", "own.json", "plain.json"].map fun name =>
      .object [("$ref", .string name)]))]

private def mixedDocuments : List (String × Json) :=
  [("mem:///base.json", emptyClass), ("mem:///other.json", emptyClass),
    ("mem:///own.json", extending "other.json"), ("mem:///plain.json", emptyClass),
    ("mem:///union.json", mixedUnion)]

private def mixedSteps : List Step :=
  mixedDocuments.map (fun (document, content) => .register document content) ++
    [.generate (.root "mem:///union.json")]

private def mixedStart : Draft :=
  { store := mixedDocuments.foldl (fun st (document, content) => st.register document content) {} }

private def mixedDraft : Draft :=
  ((Step.generate (.root "mem:///union.json")).action mixedContext |>.run mixedStart).2

private def mixedBranches : List Store.Child := (List.range 3).map fun i => ⟨⟨i + 1⟩, true⟩

@[mk_iff] private structure MixedOutcome : Prop where
  answer : ((Step.generate (.root "mem:///union.json")).action mixedContext |>.run
    mixedStart).1.toOption = some ()
  marker : mixedDraft.graph.Has ⟨0⟩ ∧
    mixedDraft.store.id? (mixedDraft.graph.get ⟨0⟩).place = some ⟨0⟩
  union : (mixedDraft.store.node ⟨0⟩).shape = .union ∧
    branchList (mixedDraft.store.node ⟨0⟩).keywords = ("oneOf", 3)
  branches : ∀ i < 3, mixedDraft.store.id? ((mixedDraft.store.node ⟨0⟩).location.below
      ["oneOf", toString i]) = some ⟨i + 1⟩ ∧
    (mixedDraft.store.node ⟨i + 1⟩).location ≠
      (mixedDraft.store.node ⟨0⟩).location.below ["oneOf", toString i] ∧
    (mixedDraft.store.node ⟨i + 1⟩).shape ≠ .primitive .null
  types : ∀ entry ∈ [(1, 1), (2, 2), (3, 4)],
    mixedDraft.graph.typeAt? (mixedDraft.store.node ⟨entry.1⟩).location = some ⟨entry.2⟩
  apart : ∀ child ∈ [⟨1⟩, ⟨2⟩], ⟨0⟩ ∉ (mixedDraft.graph.get child).interfaces ∧
    mixedDraft.graph.inherits child ⟨0⟩ = false
  superclasses : mixedDraft.graph.Extends ⟨0⟩ ⟨1⟩ ∧ mixedDraft.graph.Extends ⟨2⟩ ⟨3⟩

private theorem mixed_succeeds (h : MixedOutcome) :
    Succeeds mixedContext {} mixedSteps mixedDraft :=
  .step rfl (.step rfl (.step rfl (.step rfl (.step rfl
    (.of_run _ h.answer (.done _))))))

private theorem mixed_branches (h : MixedOutcome) :
    Branches mixedDraft.store ⟨0⟩ mixedBranches := by
  have hfound : ∀ i < 3, mixedDraft.store.Found ⟨0⟩ ["oneOf", toString i] ⟨⟨i + 1⟩, true⟩ := by
    intro i hi
    obtain ⟨hknown, hreference, -⟩ := h.branches i hi
    exact ⟨hknown, (decide_eq_true hreference).symm⟩
  unfold Branches
  rw [h.union.2]
  refine ⟨mixedBranches, ?_, ?_⟩
  · exact List.forall₂_map_right_iff.mpr
      (List.forall₂_same.mpr fun i hi => hfound i (List.mem_range.mp hi))
  · refine (List.filter_eq_self.mpr fun branch hbranch => decide_eq_true ?_).symm
    obtain ⟨i, hi, rfl⟩ := List.mem_map.mp hbranch
    exact (h.branches i (List.mem_range.mp hi)).2.2

private theorem mixed_outcome : MixedOutcome :=
  mixedOutcome_iff.mpr (by decide +kernel)

theorem branches_joined_plain : ∃ found, Branches mixedDraft.store ⟨0⟩ found ∧
    ∃ branch ∈ found, (∀ request, (dispatch mixedContext (depth mixedContext mixedDraft) request
      branch.id).run mixedDraft = (.ok (.generated ⟨4⟩), mixedDraft)) ∧
      mixedDraft.graph.Branch ⟨0⟩ ⟨4⟩ := by
  have outcome := mixed_outcome
  obtain ⟨found, hfound, hall⟩ := branches_joined (mixed_succeeds outcome) outcome.marker.1
    outcome.marker.2 outcome.union.1
  obtain rfl := hfound.unique (mixed_branches outcome)
  obtain ⟨t, ht, hjoined⟩ := hall ⟨⟨3⟩, true⟩ (by decide)
  have hplain := dispatch_placed mixedContext (outcome.types (3, 4) (by decide))
  have hsame : t = .generated ⟨4⟩ :=
    Except.ok.inj (congrArg Prod.fst ((ht ⟨"", .topLevel⟩).symm.trans (hplain ⟨"", .topLevel⟩)))
  exact ⟨_, hfound, ⟨⟨3⟩, true⟩, by decide, hplain, (hjoined ⟨4⟩ hsame (by decide)).1⟩

/-- The branch generates a type that is not below the type of its union. -/
structure LeftOut (ctx : Context) (d : Draft) (marker : TypeId) (branch : Store.Child)
    (child : TypeId) : Prop where
  generates : ∀ request,
    (dispatch ctx (depth ctx d) request branch.id).run d = (.ok (.generated child), d)
  other : child ≠ marker
  interfaces : marker ∉ (d.graph.get child).interfaces
  chain : ¬ Relation.ReflTransGen d.graph.Extends child marker

/-- A branch that the union extends is not below its type, nor is one that extends another class. -/
theorem branches_left_out : Succeeds mixedContext {} mixedSteps mixedDraft ∧
    mixedDraft.graph.Has ⟨0⟩ ∧
    mixedDraft.store.id? (mixedDraft.graph.get ⟨0⟩).place = some ⟨0⟩ ∧
    (mixedDraft.store.node ⟨0⟩).shape = .union ∧ ∃ found, Branches mixedDraft.store ⟨0⟩ found ∧
      (∃ branch ∈ found, LeftOut mixedContext mixedDraft ⟨0⟩ branch ⟨1⟩ ∧
        mixedDraft.graph.Extends ⟨0⟩ ⟨1⟩) ∧
      ∃ branch ∈ found, LeftOut mixedContext mixedDraft ⟨0⟩ branch ⟨2⟩ ∧
        mixedDraft.graph.Extends ⟨2⟩ ⟨3⟩ := by
  have outcome := mixed_outcome
  have hsucceeds := mixed_succeeds outcome
  have hacyclic := (hsucceeds.reaches.consistent consistent_empty).acyclic
  have hout : ∀ {branch : Store.Child} {child : TypeId}, child ∈ [⟨1⟩, ⟨2⟩] → child ≠ ⟨0⟩ →
      mixedDraft.graph.typeAt? (mixedDraft.store.node branch.id).location = some child →
      LeftOut mixedContext mixedDraft ⟨0⟩ branch child := by
    intro branch child hchild hne htype
    obtain ⟨hinterfaces, hchain⟩ := outcome.apart child hchild
    refine ⟨dispatch_placed mixedContext htype, hne, hinterfaces, fun hbelow => ?_⟩
    rw [← TypeGraph.inherits_iff hacyclic, hchain] at hbelow
    cases hbelow
  obtain ⟨hbase, hown⟩ := outcome.superclasses
  refine ⟨hsucceeds, outcome.marker.1, outcome.marker.2, outcome.union.1, mixedBranches,
    mixed_branches outcome, ⟨⟨⟨1⟩, true⟩, by decide, ?_, hbase⟩,
    ⟨⟨2⟩, true⟩, by decide, ?_, hown⟩
  · exact hout (by decide) (by decide) (outcome.types (1, 1) (by decide))
  · exact hout (by decide) (by decide) (outcome.types (2, 2) (by decide))

end Run

end SchemaBeans
