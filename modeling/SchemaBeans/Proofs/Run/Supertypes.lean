import Mathlib.Tactic.MkIffOfInductiveProp
import SchemaBeans.Proofs.Discriminator.Retention
import SchemaBeans.Proofs.Java.Headers
import SchemaBeans.Proofs.Run.Declarations
import SchemaBeans.Proofs.Run.Names

/-! # Supertypes in the files of a run

Every type of a finished model is opened in the file of its outermost type, below the annotations
that list its subtypes. A class names there what it extends and what it implements, so a class
that is listed at its parent is a subtype of it in Java as well. The links of enums and
interfaces stay in the model. -/
namespace SchemaBeans

/-- The file of the outermost type holds the header of the type. -/
def Model.Heads (m : Model) (id : TypeId) : Prop :=
  ∃ file ∈ m.sourceFiles, file.name = m.graph.qualifiedName (m.graph.outermost id) ∧
    ∃ lines, file.contents = Java.contents (m.graph.get (m.graph.outermost id)).package
        ((m.sheet (m.graph.outermost id)).imports (m.graph.outermost id)) lines ∧
      (m.sheet (m.graph.outermost id)).Heads id lines

/-- What the header of a type says behind its name. -/
def Model.clauses (m : Model) (id : TypeId) : Java.Clauses :=
  (m.sheet (m.graph.outermost id)).clauses id

/-- The supertypes of a type as they are written in its file. -/
def Model.supertypeNames (m : Model) (id : TypeId) : List String :=
  (m.sheet (m.graph.outermost id)).supertypeNames id

theorem Model.clauses_names {m : Model} {id : TypeId} (hkind : (m.graph.get id).kind ≠ .bean) :
    (m.clauses id).names = [] := @Java.clauses_names_eq_nil (m.sheet _) id hkind

namespace Drafting

variable {ctx : Context} {base : Nat} {d e : Draft}

def Unbound (d : Draft) : Prop := ∀ id, (d.graph.get id).binding = none

theorem Move.unbound (hd : Unbound d) (h : Move ctx base d e) : Unbound e := by
  intro id
  cases h with
  | schemas hs =>
    rw [hs.graph]
    exact hd id
  | declare =>
    rw [Drafting.declared]
    by_cases hid : d.graph.Has id
    · rw [TypeGraph.get_insert_of_has hid]
      exact hd id
    · by_cases hnew : id = ⟨d.graph.size⟩
      · rw [hnew, TypeGraph.get_insert_self]
      · rw [TypeGraph.get_of_not_has fun h => (TypeGraph.has_insert.mp h).elim hid hnew]
  | extend | property | additional | constants =>
    refine Eq.trans ?_ (hd id)
    exact TypeGraph.get_update_congr _ _ _ TypeDecl.binding fun _ => rfl
  | link =>
    refine Eq.trans ?_ (hd id)
    exact @get_linkBranch _ TypeDecl.binding (fun _ _ => rfl) (fun _ _ => rfl)
      (fun _ _ => rfl) _ _ _ _ _
  | family => exact hd id

theorem Leads.unbound (h : Leads ctx base d e) (hd : Unbound d) : Unbound e := by
  induction h with
  | refl => exact hd
  | tail _ hm ih => exact hm.unbound ih

theorem unbound_empty : Unbound {} := by
  intro id
  rw [TypeGraph.get_of_not_has (by simp [TypeGraph.Has, TypeGraph.size])]

end Drafting

namespace Run

open Drafting

variable {ctx : Context} {d : Draft} {steps : List Step} {settings : Settings} {m : Model}
  {id : TypeId}

theorem finish_heads (h : Reaches ctx {} steps d) (hm : finish settings d = .ok m)
    (hid : m.graph.Has id) : m.Heads id := by
  obtain ⟨file, hfile, hname, fuel, hinside, hcontents⟩ := finish_inside h hm hid
  exact ⟨file, hfile, hname, _, hcontents,
    @Java.declarationLines_heads (m.sheet _) id fuel 0 _ hinside []⟩

theorem finish_bound (h : Reaches ctx {} steps d) (hm : finish settings d = .ok m)
    {parent : TypeId} {b : Binding} (hb : (m.graph.get parent).binding = some b) :
    ∃ (family : Family) (mid : TypeGraph), family.parent = parent ∧
    family.BoundAs mid m.graph b := by
  have hd := h.consistent consistent_empty
  have hunbound := (h.invariant (P := Unbound) consistent_empty unbound_empty unbound_empty
    fun _ _ _ _ hd hl => hl.unbound hd).2
  have hvalid := hd.families
  have hclaimed := h.claimed
  unfold finish at hm
  obtain ⟨graph, hbind, hpure⟩ := ok_of_bind hm
  cases hpure
  rcases Family.bindAll_binding hbind hb with hbefore | ⟨family, hfamily, rfl⟩
  · rw [hunbound parent] at hbefore
    cases hbefore
  · obtain ⟨pre, post, hsplit⟩ := List.append_of_mem hfamily
    rw [hsplit] at hvalid hclaimed hbind
    obtain ⟨mid, recorded, -, hbound⟩ :=
      Family.bindAll_bound hd.enrolled h.housed.2 hvalid hclaimed hbind
    obtain rfl := Option.some.inj (hbound.recorded.symm.trans hb)
    exact ⟨family, mid, rfl, hbound⟩

/-- Every type of a finished model has its header in a file. The header names all supertypes of the
type exactly if the type is a class or has none. So it names the parent that the type is bound to,
if the type is a class, and otherwise it names nothing. -/
theorem supertypes_written (h : Reaches ctx {} steps d) (hm : finish settings d = .ok m)
    (hid : m.graph.Has id) :
    m.Heads id ∧
    (m.supertypeNames id ⊆ (m.clauses id).names ↔ (m.graph.get id).kind = .bean ∨
      (m.graph.get id).supertype = none ∧ (m.graph.get id).interfaces = []) ∧
    ((m.graph.get id).kind ≠ .bean → (m.clauses id).names = []) ∧
    ∀ parent b tag, (m.graph.get parent).binding = some b → (id, tag) ∈ b.children →
      (m.graph.get id).kind = .bean →
        ((m.graph.get parent).kind = .interface ∧
          m.graph.binaryName parent ∈ (m.clauses id).implemented ∨
        (m.graph.get parent).kind = .bean ∧
          (m.clauses id).extended = some (m.graph.binaryName parent)) := by
  refine ⟨finish_heads h hm hid, Java.supertypeNames_subset_clauses_iff, Model.clauses_names,
    fun parent b tag hb hchild hkind => ?_⟩
  obtain ⟨family, mid, rfl, hbound⟩ := finish_bound h hm hb
  refine (hbound.placed _ hchild).2.imp (And.imp_right fun hparent => ?_)
    (And.imp_right fun hparent => ?_)
  · exact Java.mem_implemented hkind hparent
  · exact Java.extended_eq hkind hparent

-- An interface whose discriminator lists a class, an enum and another interface.
private def figureContext : Context := ⟨{}, ⟨[], []⟩⟩

private def schemaRef (document : String) : Json := .object [("$ref", .string document)]

private def figureDocuments : List (String × Json) :=
  [("mem:///color.json", .object [("enum", .array [.string "red"])]),
    ("mem:///leaf.json", .object [("type", .string "object")]),
    ("mem:///sub.json", .object [("oneOf", .array [schemaRef "leaf.json"]),
      ("discriminator", .string "t")]),
    ("mem:///shape.json", .object [("oneOf", .array [schemaRef "leaf.json"]),
      ("discriminator", .object [("children",
        .array (["leaf.json", "color.json", "sub.json"].map schemaRef))])])]

private def figureSteps : List Step :=
  figureDocuments.map (fun (document, content) => .register document content) ++
    [.generate (.root "mem:///shape.json")]

private def figureStart : Draft :=
  { store := figureDocuments.foldl (fun st (document, content) => st.register document content) {} }

private def figureDraft : Draft :=
  ((Step.generate (.root "mem:///shape.json")).action figureContext |>.run figureStart).2

private def figureModel : Model := (finish {} figureDraft).toOption.getD ⟨{}, [], {}⟩

@[mk_iff] private structure FigureOutcome : Prop where
  answer : ((Step.generate (.root "mem:///shape.json")).action figureContext |>.run
    figureStart).1.toOption = some ()
  finishes : (finish {} figureDraft).toOption.isSome = true
  size : figureModel.graph.size = 4
  kinds : (figureModel.graph.get ⟨0⟩).kind = .interface ∧ (figureModel.graph.get ⟨1⟩).kind = .bean ∧
    (figureModel.graph.get ⟨2⟩).kind = .enum ∧ (figureModel.graph.get ⟨3⟩).kind = .interface
  binding : (figureModel.graph.get ⟨0⟩).binding = some ⟨.property, .logicalName, "@type",
    [(⟨1⟩, "Leaf"), (⟨2⟩, "Color"), (⟨3⟩, "Sub")]⟩
  interfaces : ∀ id ∈ [⟨2⟩, ⟨3⟩], (figureModel.graph.get id).interfaces = [⟨0⟩]
  names : figureModel.graph.binaryName ⟨0⟩ = "Shape" ∧
    figureModel.graph.binaryName ⟨2⟩ = "Color" ∧ figureModel.graph.binaryName ⟨3⟩ = "Sub"
  enum : (figureModel.sheet (figureModel.graph.outermost ⟨2⟩)).header ⟨2⟩ = "public enum Color \x7b"
  interface : (figureModel.sheet (figureModel.graph.outermost ⟨3⟩)).header ⟨3⟩ =
    "public interface Sub \x7b"

private theorem figure_outcome : FigureOutcome :=
  figureOutcome_iff.mpr (by decide +kernel)

private theorem figure_succeeds : Succeeds figureContext {} figureSteps figureDraft :=
  .step rfl (.step rfl (.step rfl (.step rfl (.of_run _ figure_outcome.answer (.done _)))))

private theorem figure_finish : finish {} figureDraft = .ok figureModel := by
  obtain ⟨m, hm⟩ := Option.isSome_iff_exists.mp figure_outcome.finishes
  rw [eq_ok_of_toOption hm, figureModel, hm]
  rfl

theorem supertypes_written_leaf : figureModel.Heads ⟨1⟩ ∧
    "Shape" ∈ (figureModel.clauses ⟨1⟩).implemented := by
  have hid : figureModel.graph.Has ⟨1⟩ := by
    rw [TypeGraph.Has, figure_outcome.size]
    decide
  obtain ⟨hheads, -, -, hparent⟩ := supertypes_written figure_succeeds.reaches figure_finish hid
  obtain ⟨hinterface, hclass, -, -⟩ := figure_outcome.kinds
  have hnamed := hparent ⟨0⟩ _ "Leaf" figure_outcome.binding (by decide) hclass
  rw [hinterface, figure_outcome.names.1] at hnamed
  exact ⟨hheads, (hnamed.resolve_right fun h => absurd h.1 (by decide)).2⟩

/-- An enum and an interface that implement an interface, which lists both, are opened without a
clause. -/
theorem supertypes_left_out : Succeeds figureContext {} figureSteps figureDraft ∧
    finish {} figureDraft = .ok figureModel ∧
    (∃ b, (figureModel.graph.get ⟨0⟩).binding = some b ∧
      (⟨2⟩, "Color") ∈ b.children ∧ (⟨3⟩, "Sub") ∈ b.children) ∧
    (∀ id ∈ [⟨2⟩, ⟨3⟩], (figureModel.graph.get id).interfaces = [⟨0⟩] ∧ figureModel.Heads id ∧
      (figureModel.clauses id).names = []) ∧
    (figureModel.sheet (figureModel.graph.outermost ⟨2⟩)).header ⟨2⟩ = "public enum Color \x7b" ∧
    (figureModel.sheet (figureModel.graph.outermost ⟨3⟩)).header ⟨3⟩ =
    "public interface Sub \x7b" := by
  obtain ⟨-, -, henum, hinterface⟩ := figure_outcome.kinds
  have hkind : ∀ id ∈ [⟨2⟩, ⟨3⟩], (figureModel.graph.get id).kind ≠ .bean := by
    simp [henum, hinterface]
  refine ⟨figure_succeeds, figure_finish, ⟨_, figure_outcome.binding, by simp, by simp⟩,
    fun id hmem => ⟨figure_outcome.interfaces id hmem, ?_, ?_⟩, figure_outcome.enum,
    figure_outcome.interface⟩
  · refine finish_heads figure_succeeds.reaches figure_finish ?_
    rw [TypeGraph.Has, figure_outcome.size]
    simp only [List.mem_cons, List.not_mem_nil, or_false] at hmem
    rcases hmem with rfl | rfl <;> decide
  · exact Model.clauses_names (hkind id hmem)

end Run

end SchemaBeans
