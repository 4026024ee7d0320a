import Mathlib.Tactic.MkIffOfInductiveProp
import SchemaBeans.Proofs.Java.Enums
import SchemaBeans.Proofs.Json.Merging
import SchemaBeans.Proofs.Run.Members

/-! # Defaults of enum properties

A property whose type is an enum has a default from its schema, and the enum has the literals of
its own schema. The field is initialized by a look-up if the default is of the kind of the
literals, whether or not it is one of them. So the look-up finds a constant only of such defaults
that agree with a literal. -/
namespace SchemaBeans.Run

open Drafting

variable {ctx : Context} {d : Draft} {steps : List Step} {settings : Settings} {m : Model}
  {id e : TypeId} {p : Property} {value : Json}

def States (d : Draft) (place : Location) (key : String) (value : Json) : Prop :=
  ∃ id found, d.store.id? place = some id ∧ d.store.Found id ["properties", key] found ∧
    (d.store.node found.id).keywords.default = some value

def Lists (d : Draft) (place : Location) (literals : List Json) : Prop :=
  ∃ id, d.store.id? place = some id ∧ enumLiterals (d.store.node id).keywords = literals

theorem finish_states (h : Succeeds ctx {} steps d) (hm : finish settings d = .ok m)
    (hid : m.graph.Has id) (hkind : (m.graph.get id).kind = .bean)
    (hp : p ∈ (m.graph.get id).properties) (hdefault : p.default = some value) :
    States d (m.graph.get id).place p.key value := by
  obtain ⟨node, hnode, hpopulated⟩ := finish_populated h hm hid hkind
  obtain ⟨found, hfound, heq, -⟩ := describes_of_populated hpopulated hp
  refine ⟨node, found, hnode, hfound, ?_⟩
  rw [← hdefault, heq]
  rfl

theorem finish_lists (h : Succeeds ctx {} steps d) (hm : finish settings d = .ok m)
    (henum : (m.graph.get e).kind = .enum) :
    Lists d (m.graph.get e).place ((m.graph.get e).constants.map (·.value)) := by
  rw [finish_part (·.kind) (fun _ _ _ => rfl) hm] at henum
  rw [finish_part (·.constants) (fun _ _ _ => rfl) hm, finish_part (·.place) (fun _ _ _ => rfl) hm]
  have hhas : d.graph.Has e := by
    by_contra hnot
    rw [TypeGraph.get_of_not_has hnot] at henum
    cases henum
  obtain ⟨node, hnode, -, -, hconstants⟩ := types_complete h e hhas
  exact ⟨node, hnode, (hconstants henum).symm⟩

section Property

variable (h : Succeeds ctx {} steps d) (hm : finish settings d = .ok m) (hid : m.graph.Has id)
  (hkind : (m.graph.get id).kind = .bean) (hp : p ∈ (m.graph.get id).properties)
  (htype : p.type = .generated e) (henum : (m.graph.get e).kind = .enum)
  (hdefault : p.default = some value)

include h hm hid hkind hp htype henum hdefault

/-- The field of a property whose type is an enum is initialized by a look-up if the default is of
the kind of the enum's values, and by nothing else unless the default is null. -/
theorem exists_enumField : ∃ body, m.DeclaresClass id body ∧ ∃ f ∈ body.fields, f.name = p.name ∧
    f.initializer = if value.isNull then " = null"
      else if Java.fitsEnum (m.graph.get e).enumValueType value then
        (m.sheet (m.graph.outermost id)).call e
          (Java.enumLiteral (m.graph.get e).enumValueType value)
      else "" := by
  obtain ⟨body, hbody⟩ := finish_declares h.reaches hm hid hkind
  obtain ⟨f, hf, hheld⟩ := body.exists_field hp
  obtain ⟨imported, hinitializer⟩ := hheld.initializer
  rw [htype, hdefault] at hinitializer
  have hyields := @Java.enumInitializer_yields (m.sheet (m.graph.outermost id)) e henum value
  exact ⟨body, hbody, f, hf, hheld.name, hinitializer.trans (hyields imported)⟩

/-- A property whose type is an enum has the default of its schema, and the constants of the enum
have the literals of theirs. The field is initialized by a look-up if the default is of the kind of
the literals. Every look-up in the initializer finds a constant exactly if a default that is looked
up agrees with the value of one. -/
theorem enum_default_iff (hvalue : ∀ n ∈ value.number?, n.WellFormed)
    (hconstants : ∀ c ∈ (m.graph.get e).constants, ∀ n ∈ c.value.number?, n.WellFormed) :
    States d (m.graph.get id).place p.key value ∧
    Lists d (m.graph.get e).place ((m.graph.get e).constants.map (·.value)) ∧
    ∃ body, m.DeclaresClass id body ∧ ∃ f ∈ body.fields, f.name = p.name ∧
      f.initializer = (if value.isNull then " = null"
        else if Java.fitsEnum (m.graph.get e).enumValueType value then
          (m.sheet (m.graph.outermost id)).call e
            (Java.enumLiteral (m.graph.get e).enumValueType value)
        else "") ∧
      ((∀ literal, f.initializer = (m.sheet (m.graph.outermost id)).call e literal →
          (Java.lookUp? (m.graph.get e) literal).isSome) ↔
        (value.isNull = false → Java.fitsEnum (m.graph.get e).enumValueType value = true →
          ∃ c ∈ (m.graph.get e).constants,
            Java.Agree (m.graph.get e).enumValueType value c.value)) := by
  refine ⟨finish_states h hm hid hkind hp hdefault, finish_lists h hm henum, ?_⟩
  obtain ⟨body, hbody, f, hf, hname, htext⟩ :=
    exists_enumField h hm hid hkind hp htype henum hdefault
  exact ⟨body, hbody, f, hf, hname, htext, Java.calls_find_iff htext hvalue hconstants⟩

end Property

-- A class with a property of an enum of one string, and a default for it.
private def colorSchema (default : String) : Json :=
  .object [("type", .string "object"), ("properties", .object [("color", .object
    [("enum", .array [.string "red"]), ("default", .string default)])])]

private abbrev colorModel (default : String) : Model := singleModel (colorSchema default)

@[mk_iff] private structure ColorOutcome (default : String) : Prop where
  single : Single (colorSchema default)
  properties : (((colorModel default).graph.get ⟨0⟩).properties.map fun p =>
    (p.name, p.type, p.default.bind Json.string?)) = [("color", .generated ⟨1⟩, some default)]
  enum : ((colorModel default).graph.get ⟨1⟩).kind = .enum
  values : ((colorModel default).graph.get ⟨1⟩).enumValueType = .string
  constants : (((colorModel default).graph.get ⟨1⟩).constants.map fun c =>
    c.value.string?) = [some "red"]

private theorem color_outcome : ColorOutcome "red" ∧ ColorOutcome "blue" :=
  ⟨(colorOutcome_iff _).mpr (by decide +kernel), (colorOutcome_iff _).mpr (by decide +kernel)⟩

namespace ColorOutcome

variable {default : String}

private theorem property (h : ColorOutcome default) :
    ∃ p ∈ ((colorModel default).graph.get ⟨0⟩).properties, p.name = "color" ∧
      p.type = .generated ⟨1⟩ ∧ p.default = some (.string default) := by
  obtain ⟨p, hp, heq⟩ := List.map_eq_singleton_iff.mp h.properties
  simp only [Prod.mk.injEq] at heq
  obtain ⟨hname, htype, hdefault⟩ := heq
  obtain ⟨value, hvalue, hstring⟩ := Option.bind_eq_some_iff.mp hdefault
  rw [Json.string?_eq_some] at hstring
  exact ⟨p, hp ▸ List.mem_singleton_self p, hname, htype, hstring ▸ hvalue⟩

private theorem constant (h : ColorOutcome default) :
    ∃ c, ((colorModel default).graph.get ⟨1⟩).constants = [c] ∧ c.value = .string "red" := by
  obtain ⟨c, hc, heq⟩ := List.map_eq_singleton_iff.mp h.constants
  exact ⟨c, hc, Json.string?_eq_some.mp heq⟩

end ColorOutcome

theorem enum_default_red : ∃ body, (colorModel "red").DeclaresClass ⟨0⟩ body ∧ ∃ f ∈ body.fields,
    f.name = "color" ∧
      f.initializer = ((colorModel "red").sheet ((colorModel "red").graph.outermost ⟨0⟩)).call ⟨1⟩
        (Java.stringLiteral "red") ∧
      (Java.lookUp? ((colorModel "red").graph.get ⟨1⟩) (Java.stringLiteral "red")).isSome := by
  obtain ⟨outcome, -⟩ := color_outcome
  obtain ⟨p, hp, hname, htype, hdefault⟩ := outcome.property
  obtain ⟨c, hconstants, hc⟩ := outcome.constant
  obtain ⟨-, -, body, hbody, f, hf, hfield, htext, hcalls⟩ :=
    enum_default_iff outcome.single.succeeds outcome.single.finishes outcome.single.has
      outcome.single.kind hp htype outcome.enum hdefault (by nofun) (by
        rw [hconstants, List.forall_mem_singleton, hc]
        nofun)
  rw [outcome.values] at htext
  refine ⟨body, hbody, f, hf, hfield.trans hname, htext, hcalls.mpr (fun _ _ => ?_) _ htext⟩
  rw [hconstants, outcome.values]
  exact ⟨c, List.mem_singleton_self c, rfl, by rw [hc]⟩

/-- A string that is not in the enum is looked up as well, and no constant has it. -/
theorem enum_default_missing :
    ∃ d, Succeeds singleContext {} (singleSteps (colorSchema "blue")) d ∧
      finish {} d = .ok (colorModel "blue") ∧
      ((colorModel "blue").graph.get ⟨1⟩).kind = .enum ∧
      (∀ c ∈ ((colorModel "blue").graph.get ⟨1⟩).constants, c.value = .string "red") ∧
      Java.lookUp? ((colorModel "blue").graph.get ⟨1⟩) (Java.stringLiteral "blue") = none ∧
      ∃ p ∈ ((colorModel "blue").graph.get ⟨0⟩).properties, p.type = .generated ⟨1⟩ ∧
        p.default = some (.string "blue") ∧
        ∃ body, (colorModel "blue").DeclaresClass ⟨0⟩ body ∧ ∃ f ∈ body.fields, f.name = p.name ∧
          f.initializer = ((colorModel "blue").sheet ((colorModel "blue").graph.outermost
            ⟨0⟩)).call ⟨1⟩ (Java.stringLiteral "blue") := by
  obtain ⟨-, outcome⟩ := color_outcome
  obtain ⟨p, hp, -, htype, hdefault⟩ := outcome.property
  obtain ⟨c, hconstants, hc⟩ := outcome.constant
  obtain ⟨body, hbody, f, hf, hname, htext⟩ := exists_enumField outcome.single.succeeds
    outcome.single.finishes outcome.single.has outcome.single.kind hp htype outcome.enum hdefault
  rw [outcome.values] at htext
  refine ⟨_, outcome.single.succeeds, outcome.single.finishes, outcome.enum, ?_, ?_, p, hp, htype,
    hdefault, body, hbody, f, hf, hname, htext⟩
  · rw [hconstants, List.forall_mem_singleton]
    exact hc
  · have hfinds := @Java.lookUp?_isSome (.string "blue") ((colorModel "blue").graph.get ⟨1⟩)
      (by nofun) (by
        rw [hconstants, List.forall_mem_singleton, hc]
        nofun)
    rw [outcome.values, hconstants] at hfinds
    rw [← Option.isNone_iff_eq_none, ← Option.isSome_eq_false_iff, ← Bool.not_eq_true]
    refine fun hsome => ?_
    obtain ⟨found, hfound, -, hvalues⟩ := hfinds.mp hsome
    rw [List.mem_singleton.mp hfound, hc] at hvalues
    exact absurd (Option.some.inj hvalues) (by decide)

end SchemaBeans.Run
