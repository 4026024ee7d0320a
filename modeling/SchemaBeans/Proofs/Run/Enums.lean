import SchemaBeans.Proofs.Generation.Labels
import SchemaBeans.Proofs.Java.Constants
import SchemaBeans.Proofs.Run.Defaults
import SchemaBeans.Proofs.Run.Widths

/-! # The enums of a run

Every enum of a finished model is written with the literals of its schema. The width of an enum of
integers is decided by the sizes of its literals, but each literal is written as it stands in the
schema, so doubles and words without sign are no literals of the type. Two constants never have one
name, and so two literals never have one text unless the schema has a name for one of them. -/
namespace SchemaBeans

def Model.WritesConstants (m : Model) (e : TypeId) : Prop :=
  ∃ file ∈ m.sourceFiles, file.name = m.graph.qualifiedName (m.graph.outermost e) ∧
    ∃ lines, file.contents = Java.contents (m.graph.get (m.graph.outermost e)).package
        ((m.sheet (m.graph.outermost e)).imports (m.graph.outermost e)) lines ∧
      (m.sheet (m.graph.outermost e)).ListsConstants e lines

theorem TypeGraph.has_of_enum {g : TypeGraph} {e : TypeId} (h : (g.get e).kind = .enum) :
    g.Has e := by
  by_contra hnot
  rw [get_of_not_has hnot] at h
  cases h

namespace Drafting

variable {settings : Settings} {k : Keywords} {primitive : Bool}

theorem enumValueType_whole (h : k.effectiveType? = some "integer") :
    ∃ wide : Bool, enumValueType settings k = .scalar (if wide then .long else .integer) false ∧
      (wide = false → ∀ v ∈ enumLiterals k, ∀ n ∈ v.number?, n.InRange) := by
  refine ⟨settings.useLongIntegers ||
    (k.enumeration.getD []).any fun v => v.number?.any fun n => !inIntRange n, ?_, ?_⟩
  · unfold enumValueType
    rw [h]
    rfl
  · intro hwide v hv n hn
    have hall := List.any_eq_false.mp (Bool.or_eq_false_iff.mp hwide).2 v (List.mem_filter.mp hv).1
    rw [Option.mem_def.mp hn] at hall
    exact inRange_of_inIntRange (by simpa using hall)

theorem wholeLiteral_enum (h : k.effectiveType? = some "integer") {v : Json}
    (hmem : v ∈ enumLiterals k)
    (hv : ∀ n ∈ v.number?, n.WellFormed) :
    Java.WholeLiteral (enumValueType settings k) (Java.enumLiteral (enumValueType settings k) v) ↔
      ∃ n : Int, v = .number (.integer n) ∧ n ≤ JsonNumber.signedMax := by
  obtain ⟨wide, htype, hrange⟩ := @enumValueType_whole settings k h
  rw [Java.wholeLiteral_iff hv htype, htype]
  cases wide with
  | false =>
    rw [if_neg Bool.false_ne_true, Java.enumValue?_int]
    constructor
    · rintro ⟨n, rfl, -, hmost⟩
      exact ⟨n, rfl, hmost.trans (by decide)⟩
    · rintro ⟨n, rfl, -⟩
      obtain ⟨hleast, hmost⟩ := hrange rfl _ hmem _ rfl
      exact ⟨n, rfl, Int.cast_le.mp hleast, Int.cast_le.mp hmost⟩
  | true =>
    rw [if_pos rfl, Java.enumValue?_long]
    refine exists_congr fun n => and_congr_right fun hn => ?_
    subst hn
    exact and_iff_right (hv _ rfl).1

end Drafting

namespace Run

open Drafting

variable {ctx : Context} {d : Draft} {steps : List Step} {settings : Settings} {m : Model}
  {id : NodeId} {e : TypeId}

theorem finish_writes (h : Reaches ctx {} steps d) (hm : finish settings d = .ok m)
    (henum : (m.graph.get e).kind = .enum) : m.WritesConstants e := by
  obtain ⟨file, hfile, hname, fuel, hinside, hcontents⟩ :=
    finish_inside h hm (TypeGraph.has_of_enum henum)
  exact ⟨file, hfile, hname, _, hcontents,
    @Java.declarationLines_lists (m.sheet _) e henum fuel 0 _ hinside []⟩

theorem finish_labels (h : Succeeds ctx {} steps d) (hm : finish settings d = .ok m)
    (henum : (m.graph.get e).kind = .enum) :
    ∃ id, d.store.id? (m.graph.get e).place = some id ∧
      Labels ctx.settings (d.store.node id).keywords (m.graph.get e) := by
  rw [finish_part (·.kind) (fun _ _ _ => rfl) hm] at henum
  obtain ⟨id, hid, hlabels⟩ :=
    h.built.labelled e (TypeGraph.has_of_enum henum) (Nat.zero_le _) henum
  refine ⟨id, ?_, ?_, ?_⟩
  · rwa [finish_part (·.place) (fun _ _ _ => rfl) hm]
  · rw [finish_part (·.constants) (fun _ _ _ => rfl) hm]
    exact hlabels.named
  · rw [finish_part (·.enumValueType) (fun _ _ _ => rfl) hm]
    exact hlabels.values

/-- An enum for a schema of integers has ints or longs as values, and it is written with the
literals of the schema in order. A literal is written as a whole number in the range of the type
exactly if it is an integer for the schema and no word without sign. -/
theorem enum_literals_fit (h : Succeeds ctx {} steps d) (hm : finish settings d = .ok m)
    (henum : (m.graph.get e).kind = .enum) (hid : d.store.id? (m.graph.get e).place = some id)
    (htype : (d.store.node id).keywords.effectiveType? = some "integer")
    (hvalues : ∀ v ∈ enumLiterals (d.store.node id).keywords, ∀ n ∈ v.number?, n.WellFormed) :
    m.WritesConstants e ∧
    (m.graph.get e).constants.map (·.value) = enumLiterals (d.store.node id).keywords ∧
    (∃ wide : Bool, (m.graph.get e).enumValueType =
      .scalar (if wide then .long else .integer) false) ∧
    ∀ c ∈ (m.graph.get e).constants,
      Java.WholeLiteral (m.graph.get e).enumValueType
          (Java.enumLiteral (m.graph.get e).enumValueType c.value) ↔
        ∃ n : Int, c.value = .number (.integer n) ∧ n ≤ JsonNumber.signedMax := by
  obtain ⟨node, hnode, hlabels⟩ := finish_labels h hm henum
  rw [hid] at hnode
  obtain rfl := Option.some.inj hnode
  have hlists := nameLiterals_values hlabels.named
  rw [List.map_nil, List.nil_append] at hlists
  obtain ⟨wide, hwide, -⟩ := @enumValueType_whole ctx.settings _ htype
  refine ⟨finish_writes h.reaches hm henum, hlists, ⟨wide, hlabels.values.trans hwide⟩,
    fun c hc => ?_⟩
  -- The width was chosen for all literals of the schema, and the constant has one of them.
  have hmem : c.value ∈ enumLiterals (d.store.node id).keywords :=
    hlists ▸ List.mem_map_of_mem hc
  rw [hlabels.values]
  exact wholeLiteral_enum htype hmem (hvalues _ hmem)

-- The run of one enum.
private def enumSchema (type : String) (literals : List Json) (names : List String) : Json :=
  .object [("type", .string type), ("enum", .array literals),
    ("javaEnumNames", .array (names.map .string))]

@[mk_iff] private structure EnumOutcome (schema : Json) (type : TypeRef)
    (numbers : List (Option JsonNumber)) (literals : List String) : Prop where
  answer : ((Step.generate (.root "mem:///a.json")).action singleContext |>.run
    (singleStart schema)).1.toOption = some ()
  families : (singleDraft schema).families = []
  kind : ((singleModel schema).graph.get ⟨0⟩).kind = .enum
  node : (singleDraft schema).store.id? ((singleModel schema).graph.get ⟨0⟩).place = some ⟨0⟩
  values : ((singleModel schema).graph.get ⟨0⟩).enumValueType = type
  numbers : ((singleModel schema).graph.get ⟨0⟩).constants.map (·.value.number?) = numbers
  literals : ((singleModel schema).graph.get ⟨0⟩).constants.map
    (fun c => Java.enumLiteral ((singleModel schema).graph.get ⟨0⟩).enumValueType c.value) =
    literals

namespace EnumOutcome

variable {schema : Json} {type : TypeRef} {numbers : List (Option JsonNumber)}
  {literals : List String}

private theorem succeeds (h : EnumOutcome schema type numbers literals) :
    Succeeds singleContext {} (singleSteps schema) (singleDraft schema) :=
  .step rfl (.of_run _ h.answer (.done _))

private theorem finishes (h : EnumOutcome schema type numbers literals) :
    finish {} (singleDraft schema) = .ok (singleModel schema) := by
  rw [finish, h.families]
  rfl

private theorem constant {n : JsonNumber} {text : String}
    (h : EnumOutcome schema type [some n] [text]) :
    ∃ c ∈ ((singleModel schema).graph.get ⟨0⟩).constants, c.value = .number n ∧
      Java.enumLiteral type c.value = text := by
  obtain ⟨c, hc, hnumber⟩ := List.map_eq_singleton_iff.mp h.numbers
  have hliterals := h.literals
  rw [hc, h.values, List.map_singleton] at hliterals
  exact ⟨c, hc ▸ List.mem_singleton_self c, Json.number?_eq_some.mp hnumber,
    List.singleton_inj.mp hliterals⟩

end EnumOutcome

private def wideSchema : Json :=
  enumSchema "integer" [.number (.integer 1), .number (.integer 3000000000)] []

private def pointSchema : Json := enumSchema "integer" [.number (.float (.ofInt 1))] []

private def wordSchema : Json := enumSchema "integer" [.number (.integer 9223372036854775808)] []

private theorem enum_outcomes :
    EnumOutcome wideSchema (.scalar .long false) [some (.integer 1), some (.integer 3000000000)]
      ["1L", "3000000000L"] ∧
    EnumOutcome pointSchema (.scalar .integer false) [some (.float (.ofInt 1))] ["1.0"] ∧
    EnumOutcome wordSchema (.scalar .long false) [some (.integer 9223372036854775808)]
      ["9223372036854775808L"] :=
  ⟨(enumOutcome_iff _ _ _ _).mpr (by decide +kernel),
    (enumOutcome_iff _ _ _ _).mpr (by decide +kernel),
    (enumOutcome_iff _ _ _ _).mpr (by decide +kernel)⟩

private theorem wellFormed_of_numbers {values : List Json} {numbers : List (Option JsonNumber)}
    (h : values.map Json.number? = numbers) (hall : ∀ n, some n ∈ numbers → n.WellFormed) :
    ∀ v ∈ values, ∀ n ∈ v.number?, n.WellFormed := by
  intro v hv n hn
  refine hall n ?_
  rw [← h, ← Option.mem_def.mp hn]
  exact List.mem_map_of_mem hv

/-- One literal is beyond the range of an int, and all are written as longs. -/
theorem enum_literals_fit_wide : (singleModel wideSchema).WritesConstants ⟨0⟩ ∧
    ((singleModel wideSchema).graph.get ⟨0⟩).constants.map
      (fun c => Java.enumLiteral ((singleModel wideSchema).graph.get ⟨0⟩).enumValueType c.value) =
        ["1L", "3000000000L"] ∧
    ∀ c ∈ ((singleModel wideSchema).graph.get ⟨0⟩).constants,
      Java.WholeLiteral (.scalar .long false)
      (Java.enumLiteral (.scalar .long false) c.value) := by
  obtain ⟨outcome, -, -⟩ := enum_outcomes
  have hnumbers :
    (enumLiterals ((singleDraft wideSchema).store.node ⟨0⟩).keywords).map Json.number? =
      [some (.integer 1), some (.integer 3000000000)] := by decide +kernel
  have hvalues := wellFormed_of_numbers hnumbers (by
    intro n hn
    simp only [List.mem_cons, Option.some.injEq, List.not_mem_nil, or_false] at hn
    rcases hn with rfl | rfl <;> exact ⟨by decide, by decide⟩)
  obtain ⟨hwrites, -, -, hfit⟩ := enum_literals_fit outcome.succeeds outcome.finishes outcome.kind
    outcome.node (by decide +kernel) hvalues
  rw [outcome.values] at hfit
  refine ⟨hwrites, outcome.literals, fun c hc => (hfit c hc).mpr ?_⟩
  have hnumber := List.mem_map_of_mem (f := fun c : EnumConstant => c.value.number?) hc
  rw [outcome.numbers] at hnumber
  simp only [List.mem_cons, List.not_mem_nil, or_false, Json.number?_eq_some] at hnumber
  rcases hnumber with h | h <;> exact ⟨_, h, by decide⟩

/-- A whole number that is a double for the schema is written as a double where ints are expected,
and a word without sign as a long that is out of range. -/
theorem enum_literals_misfit :
    (∃ d, Succeeds singleContext {} (singleSteps pointSchema) d ∧
      finish {} d = .ok (singleModel pointSchema) ∧
      ((singleModel pointSchema).graph.get ⟨0⟩).kind = .enum ∧
      ((singleModel pointSchema).graph.get ⟨0⟩).enumValueType = .scalar .integer false ∧
      (JsonNumber.float (.ofInt 1)).rational = 1 ∧
      ∃ c ∈ ((singleModel pointSchema).graph.get ⟨0⟩).constants,
        c.value = .number (.float (.ofInt 1)) ∧
        ¬ Java.WholeLiteral (.scalar .integer false)
          (Java.enumLiteral (.scalar .integer false) c.value)) ∧
    ∃ d, Succeeds singleContext {} (singleSteps wordSchema) d ∧
      finish {} d = .ok (singleModel wordSchema) ∧
      ((singleModel wordSchema).graph.get ⟨0⟩).kind = .enum ∧
      ((singleModel wordSchema).graph.get ⟨0⟩).enumValueType = .scalar .long false ∧
      ∃ c ∈ ((singleModel wordSchema).graph.get ⟨0⟩).constants,
        c.value = .number (.integer 9223372036854775808) ∧
        ¬ Java.WholeLiteral (.scalar .long false)
          (Java.enumLiteral (.scalar .long false) c.value) := by
  obtain ⟨-, point, word⟩ := enum_outcomes
  constructor
  · obtain ⟨c, hc, hvalue, hliteral⟩ := point.constant
    refine ⟨_, point.succeeds, point.finishes, point.kind, point.values, ?_, c, hc, hvalue, ?_⟩
    · exact (Binary64.ofInt_exact (n := 1) (by decide)).2.trans Int.cast_one
    · rw [hliteral]
      exact fun h => absurd h.isArgument (by decide +kernel)
  · obtain ⟨c, hc, hvalue, hliteral⟩ := word.constant
    refine ⟨_, word.succeeds, word.finishes, word.kind, word.values, c, hc, hvalue, ?_⟩
    rw [hliteral]
    exact fun h => absurd h.isArgument (by decide +kernel)

/-- The names of an enum are distinct. The look-up takes the literal of every constant back to
the constant exactly if all the literals stand for values of the type, and for different ones.
Where the schema has no names, literals are written differently, and they stand for one value
only as doubles. -/
theorem enum_values_invert (h : Succeeds ctx {} steps d) (hm : finish settings d = .ok m)
    (henum : (m.graph.get e).kind = .enum)
    (hvalues : ∀ c ∈ (m.graph.get e).constants, ∀ n ∈ c.value.number?, n.WellFormed) :
    m.WritesConstants e ∧ ((m.graph.get e).constants.map (·.name)).Nodup ∧
    (Java.Inverts (m.graph.get e) ↔ Java.Discerns (m.graph.get e)) ∧
    ∃ id, d.store.id? (m.graph.get e).place = some id ∧
      Labels ctx.settings (d.store.node id).keywords (m.graph.get e) ∧
      ∀ i j (hi : i < (m.graph.get e).constants.length) (hj : j < (m.graph.get e).constants.length),
        i ≠ j → Unnamed (d.store.node id).keywords i → Unnamed (d.store.node id).keywords j →
        Java.Apart (m.graph.get e).enumValueType (m.graph.get e).constants[i].value
          (m.graph.get e).constants[j].value := by
  obtain ⟨id, hid, hlabels⟩ := finish_labels h hm henum
  have hnames := hlabels.distinct_and_eq.2
  refine ⟨finish_writes h.reaches hm henum, hnames, Java.inverts_iff hnames hvalues, id, hid,
    hlabels, fun i j hi hj hne hunnamed hunnamed' => ?_⟩
  exact Java.apart_of_plainText (hvalues _ (List.getElem_mem hi)) (hvalues _ (List.getElem_mem hj))
    (hlabels.plainText_ne hi hj hne hunnamed hunnamed')

private def colorsSchema : Json :=
  enumSchema "string" [.string "red", .string "green"] ["", "VERDE"]

private def twinsSchema : Json := enumSchema "string" [.string "x", .string "x"] ["A", "B"]

private def onesSchema : Json :=
  enumSchema "number" [.number (.integer 1), .number (.float (.ofInt 1))] []

private theorem value_outcomes :
    EnumOutcome colorsSchema .string [none, none] ["\"red\"", "\"green\""] ∧
    EnumOutcome twinsSchema .string [none, none] ["\"x\"", "\"x\""] ∧
    EnumOutcome onesSchema (.scalar .double false) [some (.integer 1), some (.float (.ofInt 1))]
      ["1D", "1.0D"] :=
  ⟨(enumOutcome_iff _ _ _ _).mpr (by decide +kernel),
    (enumOutcome_iff _ _ _ _).mpr (by decide +kernel),
    (enumOutcome_iff _ _ _ _).mpr (by decide +kernel)⟩

private theorem one_wellFormed : (JsonNumber.float (.ofInt 1)).WellFormed := by
  have hone : Binary64.ofInt 1 = .finite false 0x10000000000000 (-52) := by decide +kernel
  rw [hone]
  exact ⟨rfl, by decide, by decide, by decide, .inl (by decide)⟩

private theorem EnumOutcome.wellFormed {schema : Json} {type : TypeRef}
    {numbers : List (Option JsonNumber)} {literals : List String}
    (h : EnumOutcome schema type numbers literals) (hall : ∀ n, some n ∈ numbers → n.WellFormed) :
    ∀ c ∈ ((singleModel schema).graph.get ⟨0⟩).constants, ∀ n ∈ c.value.number?, n.WellFormed := by
  intro c hc
  have hnumbers : (((singleModel schema).graph.get ⟨0⟩).constants.map (·.value)).map Json.number? =
      numbers := by
    rw [List.map_map]
    exact h.numbers
  exact wellFormed_of_numbers hnumbers hall c.value (List.mem_map_of_mem hc)

/-- The schema has a name for the second string only. -/
theorem enum_values_invert_green :
    ((singleModel colorsSchema).graph.get ⟨0⟩).constants.map (·.name) = ["RED", "VERDE"] ∧
      Java.Inverts ((singleModel colorsSchema).graph.get ⟨0⟩) := by
  obtain ⟨outcome, -, -⟩ := value_outcomes
  obtain ⟨-, -, hinverts, -⟩ := enum_values_invert outcome.succeeds outcome.finishes outcome.kind
    (outcome.wellFormed (by simp))
  exact ⟨by decide +kernel, hinverts.mpr ⟨by decide +kernel, by decide +kernel⟩⟩

/-- One string under two names is found under the second one only, and so are two literals of one
double. -/
theorem enum_values_collide :
    (∃ d, Succeeds singleContext {} (singleSteps twinsSchema) d ∧
      finish {} d = .ok (singleModel twinsSchema) ∧
      ((singleModel twinsSchema).graph.get ⟨0⟩).kind = .enum ∧
      ((singleModel twinsSchema).graph.get ⟨0⟩).constants.map (·.name) = ["A", "B"] ∧
      ((singleModel twinsSchema).graph.get ⟨0⟩).constants.map (fun c => Java.enumLiteral
        ((singleModel twinsSchema).graph.get ⟨0⟩).enumValueType c.value) = ["\"x\"", "\"x\""] ∧
      ¬ Java.Inverts ((singleModel twinsSchema).graph.get ⟨0⟩)) ∧
    ∃ d, Succeeds singleContext {} (singleSteps onesSchema) d ∧
      finish {} d = .ok (singleModel onesSchema) ∧
      ((singleModel onesSchema).graph.get ⟨0⟩).kind = .enum ∧
      ((singleModel onesSchema).graph.get ⟨0⟩).constants.map (·.name) = ["_1", "_1_0"] ∧
      ((singleModel onesSchema).graph.get ⟨0⟩).constants.map (fun c => Java.enumLiteral
        ((singleModel onesSchema).graph.get ⟨0⟩).enumValueType c.value) = ["1D", "1.0D"] ∧
      ¬ Java.Inverts ((singleModel onesSchema).graph.get ⟨0⟩) := by
  obtain ⟨-, twins, ones⟩ := value_outcomes
  constructor
  · have hnames : ((singleModel twinsSchema).graph.get ⟨0⟩).constants.map (·.name) =
      ["A", "B"] := by
      decide +kernel
    refine ⟨_, twins.succeeds, twins.finishes, twins.kind, hnames, twins.literals, ?_⟩
    rw [Java.inverts_iff (by rw [hnames]; decide) (twins.wellFormed (by simp))]
    exact fun h => absurd h.distinct (by decide +kernel)
  · have hnames : ((singleModel onesSchema).graph.get ⟨0⟩).constants.map (·.name) =
      ["_1", "_1_0"] := by
      decide +kernel
    refine ⟨_, ones.succeeds, ones.finishes, ones.kind, hnames, ones.literals, ?_⟩
    rw [Java.inverts_iff (by rw [hnames]; decide) (ones.wellFormed ?_)]
    · exact fun h => absurd h.distinct (by decide +kernel)
    · intro n hn
      simp only [List.mem_cons, Option.some.injEq, List.not_mem_nil, or_false] at hn
      rcases hn with rfl | rfl
      · exact ⟨by decide, by decide⟩
      · exact one_wellFormed

end Run

end SchemaBeans
