import Mathlib.Tactic.MkIffOfInductiveProp
import SchemaBeans.Proofs.Generation.Housing
import SchemaBeans.Proofs.Java.Resolution
import SchemaBeans.Proofs.Run.Inheritance

/-! # The names in the files of a run

The types of a finished model stand inside one another with names of their own, and whatever a
file of the model names is there. So every written name means its type, unless another type of
the same first part is in the way. Nothing is done about such a type: what is imported, nested or
in the package is not looked at when a name is shortened. -/
namespace SchemaBeans

open Java (Referent)

namespace Decoration

variable {g : TypeGraph} {id : TypeId} {target : Target} {children : List (TypeId × Option String)}

theorem subTypes_not_mem_bindingFamily (settings : Settings) :
    (target, Directive.subTypes children) ∉ bindingFamily settings g id := by
  simp only [bindingFamily, List.mem_append, not_or]
  refine ⟨?_, by simp⟩
  split <;> simp

theorem subTypes_mem_typeInfoFamily (settings : Settings)
    (h : (target, Directive.subTypes children) ∈ typeInfoFamily settings g id) :
    ∃ binding, (g.get id).binding = some binding ∧
      children.map (·.1) = binding.children.map (·.1) := by
  simp only [typeInfoFamily, List.mem_append] at h
  rcases h with h | h
  · split at h
    · rename_i binding hbinding
      simp only [List.mem_cons, Prod.mk.injEq, reduceCtorEq, and_false, false_or, List.not_mem_nil,
        or_false, Directive.subTypes.injEq] at h
      refine ⟨binding, hbinding, ?_⟩
      rw [h.2, List.map_map]
      rfl
    · cases h
  · simp at h

/-- The subtypes that are listed at a type are those of a binding. -/
theorem subTypes_mem_decorate {settings : Settings}
    (h : (target, Directive.subTypes children) ∈ decorate settings g) :
    ∃ id binding, (g.get id).binding = some binding ∧
      children.map (·.1) = binding.children.map (·.1) := by
  obtain ⟨family, hfamily, h⟩ := List.mem_flatMap.mp h
  obtain ⟨id, -, h⟩ := List.mem_flatMap.mp h
  have hfamily := (List.mem_filter.mp hfamily).1
  simp only [families, List.mem_cons, List.not_mem_nil, or_false] at hfamily
  rcases hfamily with rfl | rfl | rfl | rfl
  · exact absurd h (subTypes_not_mem_bindingFamily settings)
  · exact ⟨id, subTypes_mem_typeInfoFamily settings h⟩
  · simp [validationFamily, validation, boundDirective] at h
  · simp [documentationFamily, documentation] at h

theorem decorated (hg : g.Closed) (settings : Settings) (package : String) :
    (Java.Sheet.mk g (decorate settings g) settings package).Decorated := by
  intro target type htype
  obtain ⟨directive, hdirective, htype⟩ := List.mem_flatMap.mp htype
  obtain ⟨⟨place, other⟩, hmem, hplace⟩ := List.mem_filterMap.mp hdirective
  dsimp only at hplace
  split at hplace
  · cases hplace
    cases directive with
    | subTypes children =>
      obtain ⟨child, hchild, rfl⟩ := List.mem_map.mp htype
      obtain ⟨id, binding, hbinding, hsame⟩ := subTypes_mem_decorate hmem
      have hlisted : child.1 ∈ binding.children.map (·.1) := hsame ▸ List.mem_map_of_mem hchild
      obtain ⟨bound, hbound, heq⟩ := List.mem_map.mp hlisted
      have hhas := (hg id).binding binding hbinding bound hbound
      rwa [heq] at hhas
    | _ => cases htype
  · cases hplace

end Decoration

/-- What the file of a type is written from. -/
def Model.sheet (m : Model) (top : TypeId) : Java.Sheet :=
  ⟨m.graph, m.decorations, m.settings, (m.graph.get top).package⟩

namespace Run

open Drafting

variable {ctx : Context} {d : Draft} {steps : List Step} {settings : Settings} {m : Model}
  {top : TypeId}

theorem Reaches.housed (h : Reaches ctx {} steps d) : d.graph.Housed ∧ d.graph.Closed :=
  (h.invariant (P := fun d => d.graph.Housed ∧ d.graph.Closed) consistent_empty
    ⟨housed_empty, closed_empty⟩ ⟨housed_empty, closed_empty⟩
    fun _ _ _ hd ⟨hhoused, hclosed⟩ hl => ⟨hl.housed hd hhoused, hl.closed hclosed⟩).2

theorem finish_housed (h : Reaches ctx {} steps d) (hm : finish settings d = .ok m) :
    m.graph.Housed ∧ m.graph.Closed := by
  have hd := h.consistent consistent_empty
  obtain ⟨hhoused, hclosed⟩ := h.housed
  have hgains := finish_gains hd hm
  refine ⟨hhoused.keeps hgains.keeps hgains.size hd.nests, ?_⟩
  unfold finish at hm
  obtain ⟨graph, hbind, hpure⟩ := ok_of_bind hm
  cases hpure
  exact Family.bindAll_closed hd.enrolled hclosed hd.families hbind

theorem Reaches.orderly (h : Reaches ctx {} steps d)
    (hbefore : '.' ∉ ctx.settings.classNamePrefix.toList)
    (hafter : '.' ∉ ctx.settings.classNameSuffix.toList) : d.graph.Orderly := by
  obtain ⟨hd, hdotless⟩ := h.invariant (P := fun d => d.graph.Dotless) consistent_empty
    dotless_empty dotless_empty fun _ _ _ _ hdotless hl => hl.dotless hbefore hafter hdotless
  exact ⟨hd.nests, h.housed.1, hdotless, hd.named.distinct⟩

theorem finish_orderly (h : Reaches ctx {} steps d) (hm : finish settings d = .ok m)
    (hbefore : '.' ∉ ctx.settings.classNamePrefix.toList)
    (hafter : '.' ∉ ctx.settings.classNameSuffix.toList) :
    m.graph.Orderly ∧ m.graph.Closed := by
  have hgains := finish_gains (h.consistent consistent_empty) hm
  exact ⟨(h.orderly hbefore hafter).keeps hgains.keeps hgains.size, (finish_housed h hm).2⟩

/-- Whatever a file names is there. -/
theorem finish_proper (hclosed : m.graph.Closed) (hm : finish settings d = .ok m)
    {around : List TypeId} {type : Referent} (hnamed : (m.sheet top).NamedAt top around type) :
    type.Proper m.graph := by
  unfold finish at hm
  obtain ⟨graph, -, hpure⟩ := ok_of_bind hm
  cases hpure
  exact hnamed.proper hclosed (Decoration.decorated hclosed settings _)

/-- A type that stands in no other has a file, with the imports that its sheet asks for. -/
theorem exists_sourceFile (hhas : m.graph.Has top) (htop : (m.graph.get top).enclosing = none) :
    ∃ file ∈ m.sourceFiles, file.name = m.graph.qualifiedName top ∧
      file.contents = Java.contents (m.graph.get top).package ((m.sheet top).imports top)
        ((Java.declarationLines (m.sheet top) (m.graph.size + 1) 0 top).run []).1 := by
  have hmem : top ∈ m.graph.topLevel := by
    refine List.mem_filter.mpr ⟨TypeGraph.mem_ids.mpr hhas, ?_⟩
    rw [htop]
    rfl
  exact ⟨_, List.mem_mergeSort.mpr (List.mem_map_of_mem hmem), rfl, rfl⟩

/-- A type stands in the declaration that the file of its outermost type holds. -/
theorem finish_inside (h : Reaches ctx {} steps d) (hm : finish settings d = .ok m) {id : TypeId}
    (hid : m.graph.Has id) :
    ∃ file ∈ m.sourceFiles, file.name = m.graph.qualifiedName (m.graph.outermost id) ∧
      ∃ fuel, id ∈ m.graph.inside fuel (m.graph.outermost id) ∧
        file.contents = Java.contents (m.graph.get (m.graph.outermost id)).package
          ((m.sheet (m.graph.outermost id)).imports (m.graph.outermost id))
          ((Java.declarationLines (m.sheet (m.graph.outermost id)) fuel 0
            (m.graph.outermost id)).run []).1 := by
  have hgains := finish_gains (h.consistent Drafting.consistent_empty) hm
  have hnests := hgains.keeps.nests hgains.size (h.consistent Drafting.consistent_empty).nests
  obtain ⟨houter, hopen⟩ := TypeGraph.outermost_spec hnests hid
  obtain ⟨file, hfile, hname, hcontents⟩ := exists_sourceFile houter hopen
  have hinside := (TypeGraph.mem_inside_topLevel hnests houter hopen).mpr ⟨hid, rfl⟩
  exact ⟨file, hfile, hname, _, hinside, hcontents⟩

/-- Every type that stands in no other has a file. In it, a written name means the type that it was
written for if no other type is found under its first part. A simple name means its type in this
case only, unless a declaration around it has the type as a member. If there is no other type under
any first part, no two imports have the same simple name. -/
theorem written_names_resolve (h : Reaches ctx {} steps d) (hm : finish settings d = .ok m)
    (hbefore : '.' ∉ ctx.settings.classNamePrefix.toList)
    (hafter : '.' ∉ ctx.settings.classNameSuffix.toList) (hhas : m.graph.Has top)
    (htop : (m.graph.get top).enclosing = none) (classpath : Java.Classpath) :
    (∃ file ∈ m.sourceFiles, file.name = m.graph.qualifiedName top ∧
      file.contents = Java.contents (m.graph.get top).package ((m.sheet top).imports top)
        ((Java.declarationLines (m.sheet top) (m.graph.size + 1) 0 top).run []).1) ∧
    (∀ around type, (m.sheet top).NamedAt top around type →
      ((m.sheet top).scope classpath top around).CanName type →
      (m.sheet top).ClearAt classpath top around type →
        (m.sheet top).ResolvesAt classpath top around type) ∧
    (∀ around type, (m.sheet top).NamedAt top around type → (m.sheet top).outer type = type →
      (∀ owner ∈ around, ¬ Java.MemberType m.graph classpath (.generated owner)
        ((m.sheet top).leading type) type) →
      (m.sheet top).ResolvesAt classpath top around type →
        (m.sheet top).ClearAt classpath top around type) ∧
    ((∀ around type, (m.sheet top).NamedAt top around type →
      (m.sheet top).ClearAt classpath top around type) →
        (((m.sheet top).imports top).map Java.simpleName).Nodup) := by
  obtain ⟨horderly, hclosed⟩ := finish_orderly h hm hbefore hafter
  have hproper : ∀ around type, (m.sheet top).NamedAt top around type → type.Proper m.graph :=
    fun around type hnamed => finish_proper hclosed hm hnamed
  refine ⟨exists_sourceFile hhas htop, fun around type hnamed hcan hclear => ?_,
    fun around type hnamed houter hnot hresolves => ?_, fun hclear => ?_⟩
  · exact hnamed.resolves horderly hhas htop (hproper around type hnamed) hcan hclear
  · exact hresolves.clear horderly (hproper around type hnamed) houter hnot
  · exact Java.imports_distinct horderly hhas htop hproper hclear

-- A file with one top-level class. In the first sample another class is nested in it; in the
-- second one it has a list, and a member of a class with the simple name of lists.
private def nameContext : Context := ⟨{}, ⟨[], []⟩⟩

private def nameSteps (document : String) (schema : Json) : List Step :=
  [.register document schema, .generate (.root document)]

private def nameStart (document : String) (schema : Json) : Draft :=
  { store := ({} : Store).register document schema }

private def nameDraft (document : String) (schema : Json) : Draft :=
  ((Step.generate (.root document)).action nameContext |>.run (nameStart document schema)).2

private def nameModel (document : String) (schema : Json) : Model :=
  ⟨(nameDraft document schema).graph, Decoration.decorate {} (nameDraft document schema).graph, {}⟩

private def nameImports (m : Model) : List String :=
  ((Java.declarationLines (m.sheet ⟨0⟩) (m.graph.size + 1) 0 ⟨0⟩).run []).2

@[mk_iff] private structure NameOutcome (document : String) (schema : Json) (m : Model) : Prop where
  model : m = nameModel document schema
  answer : ((Step.generate (.root document)).action nameContext |>.run
    (nameStart document schema)).1.toOption = some ()
  families : (nameDraft document schema).families = []
  has : m.graph.Has ⟨0⟩
  around : m.graph.outwards ⟨0⟩ = [⟨0⟩]
  enclosing : (m.graph.get ⟨0⟩).enclosing = none
  package : (m.graph.get ⟨0⟩).package = ""
  kind : (m.graph.get ⟨0⟩).kind = .bean
  supertype : (m.graph.get ⟨0⟩).supertype = none
  interfaces : (m.graph.get ⟨0⟩).interfaces = []

section Outcome

variable {document : String} {schema : Json} {type : Referent}

private theorem name_succeeds (h : NameOutcome document schema m) :
    Succeeds nameContext {} (nameSteps document schema) (nameDraft document schema) :=
  .step rfl (.of_run _ h.answer (.done _))

private theorem name_finish (h : NameOutcome document schema m) :
    finish nameContext.settings (nameDraft document schema) = .ok m := by
  rw [h.model, finish, h.families]
  rfl

private theorem name_namedAt (h : NameOutcome document schema m)
    (htype : type ∈ (m.sheet ⟨0⟩).bodyNames ⟨0⟩) : (m.sheet ⟨0⟩).NamedAt ⟨0⟩ [⟨0⟩] type := by
  have htop : m.graph.outermost ⟨0⟩ = ⟨0⟩ := by
    unfold TypeGraph.outermost
    rw [h.around]
    rfl
  have hnamed : (m.sheet ⟨0⟩).NamedAt ⟨0⟩ (m.graph.outwards ⟨0⟩) type := .body h.has htop htype
  rwa [h.around] at hnamed

end Outcome

private def personSchema : Json :=
  .object [("type", .string "object"),
    ("properties", .object [("address", .object [("type", .string "object")])])]

@[mk_iff] private structure PersonOutcome (m : Model) : Prop where
  sample : NameOutcome "mem:///person.json" personSchema m
  named : Referent.generated ⟨1⟩ ∈ (m.sheet ⟨0⟩).bodyNames ⟨0⟩
  outer : (m.sheet ⟨0⟩).outer (.generated ⟨1⟩) = .generated ⟨0⟩
  leading : (m.sheet ⟨0⟩).leading (.generated ⟨1⟩) = "Person"
  spelled : (m.sheet ⟨0⟩).spelled (.generated ⟨1⟩) = "Person.Address"
  name : (m.graph.get ⟨0⟩).name = "Person"
  nested : ∀ id ∈ m.graph.ids, (m.graph.get id).enclosing = some ⟨0⟩ →
    (m.graph.get id).name ≠ "Person"
  imports : ∀ full ∈ nameImports m, Java.simpleName full ≠ "Person"

private theorem person_outcome : ∃ m, PersonOutcome m := by
  have hsample := (nameOutcome_iff "mem:///person.json" personSchema _).mpr ⟨rfl, by decide +kernel⟩
  exact ⟨_, (personOutcome_iff _).mpr ⟨hsample, by decide +kernel⟩⟩

private def someClasses : List String :=
  ["java.lang.Object", "java.lang.String", "java.util.Map", "java.util.Map.Entry",
    "java.util.Objects"]

private def someClasspath : Java.Classpath where
  Has name := name ∈ someClasses
  member? owner name :=
    if owner = "java.util.Map" ∧ name = "Entry" then some "java.util.Map.Entry" else none
  proper := by decide

theorem written_names_resolve_nested : ∃ m : Model,
    (m.sheet ⟨0⟩).NamedAt ⟨0⟩ [⟨0⟩] (.generated ⟨1⟩) ∧
      (m.sheet ⟨0⟩).spelled (.generated ⟨1⟩) = "Person.Address" ∧
      (m.sheet ⟨0⟩).ResolvesAt someClasspath ⟨0⟩ [⟨0⟩] (.generated ⟨1⟩) := by
  obtain ⟨m, h⟩ := person_outcome
  have hresolve := (written_names_resolve (name_succeeds h.sample).reaches (name_finish h.sample)
    (by decide) (by decide) h.sample.has h.sample.enclosing someClasspath).2.1
  have hnamed := name_namedAt h.sample h.named
  refine ⟨m, hnamed, h.spelled, hresolve _ _ hnamed (fun _ => h.sample.package) ?_⟩
  have hfile : ((m.sheet ⟨0⟩).scope someClasspath ⟨0⟩ [⟨0⟩]).InFile "Person" (.generated ⟨0⟩) :=
    .inl ⟨h.name, rfl⟩
  rw [Java.Sheet.ClearAt, h.leading, h.outer]
  refine ⟨?_, ?_, fun hnot => absurd hfile hnot, fun hnot => absurd hfile hnot⟩
  · intro owner howner other hmember
    rw [List.mem_singleton.mp howner] at hmember
    obtain ⟨inner, hinner, hnested, hname, -⟩ :=
      Java.memberType_bare h.sample.kind h.sample.supertype h.sample.interfaces hmember
    exact absurd hname (h.nested inner (TypeGraph.mem_ids.mpr hinner) hnested)
  · rintro other (⟨-, hother⟩ | ⟨full, hfull, hname, -⟩)
    · exact hother
    · exact absurd hname (h.imports full (Java.mem_sortedImports.mp hfull))

private def userSchema : Json :=
  .object [("type", .string "object"),
    ("properties", .object [
      ("tags", .object
        [("type", .string "array"), ("items", .object [("type", .string "string")])]),
      ("other", .object [("type", .string "object"),
        ("existingJavaType", .string "com.acme.List")])])]

@[mk_iff] private structure UserOutcome (m : Model) : Prop where
  sample : NameOutcome "mem:///user.json" userSchema m
  named : Referent.library "com.acme.List" ∈ (m.sheet ⟨0⟩).bodyNames ⟨0⟩
  imports : ∀ full ∈ ["com.acme.List", "java.util.List"],
    full ∈ nameImports m ∧ Java.simpleName full = "List"
  library : ∀ id ∈ m.graph.ids, m.graph.qualifiedName id ≠ "java.util.List"

private theorem user_outcome : ∃ m, UserOutcome m := by
  have hsample := (nameOutcome_iff "mem:///user.json" userSchema _).mpr ⟨rfl, by decide +kernel⟩
  exact ⟨_, (userOutcome_iff _).mpr ⟨hsample, by decide +kernel⟩⟩

/-- A file may import two classes of one simple name, and the name then means neither. -/
theorem list_names_two_classes : ∃ (ctx : Context) (steps : List Step) (d : Draft) (m : Model)
    (top : TypeId) (around : List TypeId), Succeeds ctx {} steps d ∧ finish ctx.settings d = .ok m ∧
      m.graph.Has top ∧ (m.graph.get top).enclosing = none ∧
      (m.sheet top).NamedAt top around (.library "com.acme.List") ∧
      (∀ classpath : Java.Classpath, classpath.Has "com.acme.List" →
        ((m.sheet top).scope classpath top around).CanName (.library "com.acme.List") ∧
          ¬ (m.sheet top).ResolvesAt classpath top around (.library "com.acme.List")) ∧
      ¬ (((m.sheet top).imports top).map Java.simpleName).Nodup := by
  obtain ⟨m, h⟩ := user_outcome
  obtain ⟨hacme, hname⟩ := h.imports "com.acme.List" (by decide)
  obtain ⟨hutil, hsame⟩ := h.imports "java.util.List" (by decide)
  have hacme := Java.mem_sortedImports.mpr hacme
  have hutil := Java.mem_sortedImports.mpr hutil
  have hsame := hsame.trans hname.symm
  have hnamed := name_namedAt h.sample h.named
  refine ⟨nameContext, _, _, m, ⟨0⟩, [⟨0⟩], name_succeeds h.sample, name_finish h.sample,
    h.sample.has, h.sample.enclosing, hnamed, fun classpath hclass => ⟨⟨hclass, ?_⟩, ?_⟩, ?_⟩
  · exact fun hdot => absurd (by decide) hdot
  · intro hresolves
    have horderly := (finish_orderly (name_succeeds h.sample).reaches (name_finish h.sample)
      (by decide) (by decide)).1
    have hplain : '<' ∉ "com.acme.List".toList := by decide
    have hproper : (Referent.library "com.acme.List").Proper m.graph := hplain
    have hclear := hresolves.clear horderly hproper rfl fun owner howner hmember => by
      rw [List.mem_singleton.mp howner] at hmember
      obtain ⟨inner, -, -, -, hinner⟩ :=
        Java.memberType_bare h.sample.kind h.sample.supertype h.sample.interfaces hmember
      cases hinner
    have hrival := hclear.file (.library "java.util.List") (.inr ⟨_, hutil, hsame,
      .library fun id hid => h.library id (TypeGraph.mem_ids.mpr hid)⟩)
    exact absurd (Referent.library.inj hrival) (by decide)
  · intro hnodup
    have heq := List.inj_on_of_nodup_map hnodup hacme hutil hsame.symm
    exact absurd heq (by decide)

end Run

end SchemaBeans
