import SchemaBeans.Java.SourceFile
import SchemaBeans.Proofs.TypeGraph.Partition

/-! # The layout of a file

The declaration in a file opens types and closes them again, those nested in a type between the
two. Which types, and in which order, the graph alone tells. It opens every type inside the type
of the file once, and any fuel beyond the number of types gives the same lines. -/
namespace SchemaBeans.Java

/-- A piece of a declaration. -/
inductive Piece where
  | opening (indent : Nat) (id : TypeId)
  | gap
  | closing (indent : Nat)
  deriving DecidableEq, Repr

namespace Piece

def lines (sheet : Sheet) : Piece → Importing Lines
  | opening indent id => openLines sheet indent id
  | gap => pure [""]
  | closing indent => pure [line indent "\x7d"]

def opened? : Piece → Option TypeId
  | opening _ id => some id
  | _ => none

end Piece

/-- The pieces of a declaration with the declarations nested in it, down to a depth. -/
def pieces (g : TypeGraph) : Nat → Nat → TypeId → List Piece
  | 0, _, _ => []
  | depth + 1, indent, id =>
    .opening indent id :: (g.nested id).flatMap (fun inner =>
      .gap :: pieces g depth (indent + 1) inner) ++ [.closing indent]

def written (sheet : Sheet) (pieces : List Piece) : Importing Lines := do
  let lines ← pieces.mapM (Piece.lines sheet)
  pure lines.flatten

variable {g : TypeGraph} {sheet : Sheet}

@[simp] theorem written_nil : written sheet [] = pure [] := by
  simp [written]

@[simp] theorem written_cons (piece : Piece) (rest : List Piece) :
    written sheet (piece :: rest) = (do
      let first ← piece.lines sheet
      let others ← written sheet rest
      pure (first ++ others)) := by
  simp [written]

theorem written_append (before after : List Piece) :
    written sheet (before ++ after) = (do
      let first ← written sheet before
      let others ← written sheet after
      pure (first ++ others)) := by
  induction before with
  | nil => simp
  | cons piece rest ih =>
    simp only [List.cons_append, written_cons, ih, bind_assoc, pure_bind, List.append_assoc]

theorem written_nested (body : TypeId → List Piece) (inners : List TypeId) :
    written sheet (inners.flatMap fun inner => .gap :: body inner) = (do
      let nested ← inners.mapM fun inner => written sheet (body inner)
      pure (nested.flatMap ("" :: ·))) := by
  induction inners with
  | nil => simp
  | cons inner rest ih => simp [written_append, ih, Piece.lines]

theorem declarationLines_eq_written : ∀ (fuel indent : Nat) (id : TypeId),
    declarationLines sheet fuel indent id = written sheet (pieces sheet.graph fuel indent id) := by
  intro fuel
  induction fuel with
  | zero => exact fun indent id => written_nil.symm
  | succ fuel ih =>
    intro indent id
    have hnested : declarationLines sheet fuel (indent + 1) = fun inner =>
        written sheet (pieces sheet.graph fuel (indent + 1) inner) := funext (ih (indent + 1))
    rw [declarationLines, pieces, List.cons_append, written_cons, written_append, written_nested,
      hnested]
    simp [Piece.lines]

theorem opened_pieces : ∀ (depth indent : Nat) (id : TypeId),
    (pieces g depth indent id).filterMap Piece.opened? = g.inside depth id := by
  intro depth
  induction depth with
  | zero => exact fun _ _ => rfl
  | succ depth ih =>
    intro indent id
    simp [pieces, TypeGraph.inside, List.filterMap_cons, List.filterMap_flatMap, Piece.opened?, ih]

theorem pieces_depth (hg : g.Nests) : ∀ (depth other indent : Nat) (id : TypeId), g.Has id →
    g.size ≤ id.index + depth → g.size ≤ id.index + other →
    pieces g depth indent id = pieces g other indent id := by
  intro depth
  induction depth with
  | zero =>
    intro other indent id hid hdepth
    exact absurd hid (Nat.not_lt.mpr hdepth)
  | succ depth ih =>
    intro other indent id hid hdepth hother
    cases other with
    | zero => exact absurd hid (Nat.not_lt.mpr hother)
    | succ other =>
      have hnested : ∀ inner ∈ g.nested id, pieces g depth (indent + 1) inner =
          pieces g other (indent + 1) inner := by
        intro inner hinner
        obtain ⟨hhas, henclosing⟩ := hg.mem_nested.mp hinner
        have hlt := hg.younger inner id hhas henclosing
        exact ih other (indent + 1) inner hhas (by omega) (by omega)
      have hbodies := List.flatMap_congr fun inner hinner =>
        congrArg (Piece.gap :: ·) (hnested inner hinner)
      rw [pieces, pieces, hbodies]

/-- The pieces of a declaration with all that is nested in it. -/
def layout (g : TypeGraph) (indent : Nat) (id : TypeId) : List Piece :=
  pieces g (g.size + 1) indent id

theorem layout_eq (hg : g.Nests) (indent : Nat) (id : TypeId) :
    layout g indent id =
      .opening indent id :: (g.nested id).flatMap (fun inner =>
        .gap :: layout g (indent + 1) inner) ++ [.closing indent] := by
  have hnested : ∀ inner ∈ g.nested id, pieces g g.size (indent + 1) inner =
      layout g (indent + 1) inner := fun inner hinner =>
    pieces_depth hg _ _ _ inner (hg.mem_nested.mp hinner).1 (by omega) (by omega)
  have hbodies := List.flatMap_congr fun inner hinner =>
    congrArg (Piece.gap :: ·) (hnested inner hinner)
  rw [layout, pieces, hbodies]

theorem declarationLines_eq_layout (hg : sheet.graph.Nests) {id : TypeId}
    (hid : sheet.graph.Has id) {fuel : Nat} (hfuel : sheet.graph.size ≤ fuel) (indent : Nat) :
    declarationLines sheet fuel indent id = written sheet (layout sheet.graph indent id) := by
  rw [declarationLines_eq_written, layout]
  congr 1
  exact pieces_depth hg _ _ _ id hid (by omega) (by omega)

/-- The types that the file of a type declares, from the outside in. -/
def opened (g : TypeGraph) (top : TypeId) : List TypeId := (layout g 0 top).filterMap Piece.opened?

theorem opened_eq_inside (g : TypeGraph) : opened g = g.inside (g.size + 1) :=
  funext fun top => opened_pieces _ _ top

theorem exists_order (settings : Settings) (g : TypeGraph) (decorations : Decorations) :
    ∃ order : List TypeId, order.Perm g.topLevel ∧
      sourceFiles settings g decorations = order.map (sourceFile settings g decorations) := by
  let file := sourceFile settings g decorations
  refine ⟨g.topLevel.mergeSort fun a b => Path.le (file a).path (file b).path,
    List.mergeSort_perm _ _, ?_⟩
  exact (List.map_mergeSort (f := file) fun _ _ _ _ => rfl).symm

theorem opened_perm_ids (hg : g.Nests) {order : List TypeId} (horder : order.Perm g.topLevel) :
    (order.flatMap (opened g)).Perm g.ids := by
  rw [opened_eq_inside]
  exact TypeGraph.inside_perm_ids hg horder

theorem mem_opened (hg : g.Nests) {top id : TypeId} (htop : top ∈ g.topLevel) :
    id ∈ opened g top ↔ g.Has id ∧ g.outermost id = top := by
  obtain ⟨hhas, henclosing⟩ := TypeGraph.mem_topLevel.mp htop
  rw [opened_eq_inside]
  exact TypeGraph.mem_inside_topLevel hg hhas henclosing

end SchemaBeans.Java
