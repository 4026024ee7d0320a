import Mathlib.Tactic.MkIffOfInductiveProp
import SchemaBeans.Proofs.Java.Layout
import SchemaBeans.Proofs.Run.Names

/-! # The declarations of a run

Types stand inside one another, each in an older one, and whatever a type names is there. So the
way outwards ends, and the declaration in a file is complete however deep its types are nested.
The files of a finished model declare every type once, each in the file of its outermost type. -/
namespace SchemaBeans

/-- Every id that stands in the graph is that of a type, and the types stand inside one another:
each in an older one that lists it, once, and under a name that no type around it has. -/
structure TypeGraph.Boxed (g : TypeGraph) : Prop where
  closed : g.Closed
  enclosing : ∀ id owner, (g.get id).enclosing = some owner → g.Has owner ∧ owner.index < id.index
  nested : ∀ owner inner,
    inner ∈ g.nested owner ↔ g.Has inner ∧ (g.get inner).enclosing = some owner
  distinct : ∀ owner, (g.nested owner).Nodup
  apart : ∀ id, g.Has id → ∀ outer ∈ g.outwards id, outer ≠ id →
    (g.get outer).name ≠ (g.get id).name
  outermost : ∀ id, g.Has id → g.outermost id = match (g.get id).enclosing with
    | some owner => g.outermost owner
    | none => id
  binaryName : ∀ id, g.Has id → g.binaryName id = match (g.get id).enclosing with
    | some owner => g.binaryName owner ++ "." ++ (g.get id).name
    | none => (g.get id).name

theorem TypeGraph.boxed {g : TypeGraph} (hnests : g.Nests) (hhoused : g.Housed)
    (hclosed : g.Closed) : g.Boxed where
  closed := hclosed
  enclosing id owner howner := by
    have hid : g.Has id := by
      by_contra hnot
      rw [get_of_not_has hnot] at howner
      cases howner
    exact ⟨hnests.has_owner hid howner, hnests.younger id owner hid howner⟩
  nested _ _ := hnests.mem_nested
  distinct := hnests.nodup_nested
  apart id hid outer houter hne := by
    cases howner : (g.get id).enclosing with
    | none =>
      rw [outwards_topLevel hnests hid howner, List.mem_singleton] at houter
      exact absurd houter hne
    | some owner =>
      rw [outwards_nested hnests hid howner] at houter
      exact hhoused.apart id owner hid howner outer ((List.mem_cons.mp houter).resolve_left hne)
  outermost _ := outermost_eq hnests
  binaryName _ := binaryName_eq hnests

/-- The files of a model are those of its top-level types, in the given order. A file holds the
declaration of its type: each type inside is opened, then come the declarations nested in it, each
whole, and then it is closed again. -/
structure Model.Declares (m : Model) (order : List TypeId) : Prop where
  tops : order.Perm m.graph.topLevel
  files : m.sourceFiles = order.map (Java.sourceFile m.settings m.graph m.decorations)
  contents : ∀ top ∈ order, (Java.sourceFile m.settings m.graph m.decorations top).contents =
    Java.contents (m.graph.get top).package ((m.sheet top).imports top)
      ((Java.written (m.sheet top) (Java.layout m.graph 0 top)).run []).1
  layout : ∀ indent id, Java.layout m.graph indent id =
    .opening indent id :: (m.graph.nested id).flatMap (fun inner =>
      .gap :: Java.layout m.graph (indent + 1) inner) ++ [.closing indent]
  fuel : ∀ top id indent fuel, m.graph.Has id → m.graph.size ≤ fuel →
    Java.declarationLines (m.sheet top) fuel indent id =
      Java.written (m.sheet top) (Java.layout m.graph indent id)
  once : (order.flatMap (Java.opened m.graph)).Perm m.graph.ids
  inside : ∀ top ∈ order, ∀ id,
    id ∈ Java.opened m.graph top ↔ m.graph.Has id ∧ m.graph.outermost id = top

theorem Model.exists_declares {m : Model} (hnests : m.graph.Nests) : ∃ order, m.Declares order := by
  obtain ⟨order, horder, hfiles⟩ := Java.exists_order m.settings m.graph m.decorations
  have hfuel : ∀ top id indent fuel, m.graph.Has id → m.graph.size ≤ fuel →
      Java.declarationLines (m.sheet top) fuel indent id =
        Java.written (m.sheet top) (Java.layout m.graph indent id) :=
    fun top id indent fuel hid hle =>
      have hsheet : (m.sheet top).graph.Has id := hid
      Java.declarationLines_eq_layout hnests hsheet hle indent
  refine ⟨order, horder, hfiles, fun top htop => ?_, Java.layout_eq hnests, hfuel,
    Java.opened_perm_ids hnests horder, fun top htop id => ?_⟩
  · have hhas := (TypeGraph.mem_topLevel.mp (horder.mem_iff.mp htop)).1
    rw [← hfuel top top 0 _ hhas (Nat.le_succ _)]
    rfl
  · exact Java.mem_opened hnests (horder.mem_iff.mp htop)

namespace Run

open Drafting

variable {ctx : Context} {d : Draft} {steps : List Step} {settings : Settings} {m : Model}

theorem finish_without_families (settings : Settings) (h : d.families = []) :
    ∃ m, finish settings d = .ok m ∧ m.graph = d.graph := by
  rw [finish, h]
  exact ⟨_, rfl, rfl⟩

-- A class with a class nested in it.
private def boxContext : Context := ⟨{}, ⟨[], []⟩⟩

private def boxSchema : Json :=
  .object [("type", .string "object"),
    ("properties", .object [("lid", .object [("type", .string "object")])])]

private def boxSteps : List Step :=
  [.register "mem:///box.json" boxSchema, .generate (.root "mem:///box.json")]

private def boxStart : Draft := { store := ({} : Store).register "mem:///box.json" boxSchema }

private def boxDraft : Draft :=
  ((Step.generate (.root "mem:///box.json")).action boxContext |>.run boxStart).2

@[mk_iff] private structure BoxOutcome : Prop where
  answer : ((Step.generate (.root "mem:///box.json")).action boxContext |>.run
    boxStart).1.toOption = some ()
  families : boxDraft.families = []
  ids : boxDraft.graph.ids = [⟨0⟩, ⟨1⟩]
  enclosing : (boxDraft.graph.get ⟨1⟩).enclosing = some ⟨0⟩

private theorem box_outcome : BoxOutcome :=
  boxOutcome_iff.mpr (by decide +kernel)

end Run

end SchemaBeans
