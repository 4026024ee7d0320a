import Mathlib.Data.List.Nodup
import SchemaBeans.Proofs.Java.Enums
import SchemaBeans.Proofs.Java.Members

/-! # The constants of an enum

Every constant is written with its literal. A whole number is a literal of an int or a long in
its range only if it is an integer for the schema as well: a double shows that it is one. The
look-up takes the value of each constant back to the constant exactly if all the literals stand
for values, and for different ones. -/
namespace SchemaBeans.Java

variable {type : TypeRef} {value : Json} {decl : TypeDecl} {sheet : Sheet} {id : TypeId}

def constantText (type : TypeRef) (count : Nat) (constant : EnumConstant × Nat) : String :=
  constant.1.name ++ "(" ++ enumLiteral type constant.1.value ++ ")" ++
    if constant.2 + 1 = count then ";" else ","

/-- The lines hold the constants in order, each with its literal and below its annotations. -/
def Sheet.ListsConstants (sheet : Sheet) (id : TypeId) (lines : Lines) : Prop :=
  ∃ indent before written after, lines = before ++ written.flatten ++ after ∧
    List.Forall₂ (fun constant piece => ∃ marks, piece = marks ++ [line indent
        (constantText (sheet.graph.get id).enumValueType
          (sheet.graph.get id).constants.length constant)])
      (sheet.graph.get id).constants.zipIdx written

theorem Sheet.ListsConstants.within {lines : Lines} (h : sheet.ListsConstants id lines)
    (ahead behind : Lines) : sheet.ListsConstants id (ahead ++ lines ++ behind) := by
  obtain ⟨indent, before, written, after, rfl, hall⟩ := h
  exact ⟨indent, ahead ++ before, written, after ++ behind, by simp, hall⟩

theorem constantLines_yields (indent : Nat) (type : TypeRef) (count : Nat)
    (constant : EnumConstant × Nat) : Yields (constantLines sheet indent id type count constant)
      fun piece => ∃ marks, piece = marks ++ [line indent (constantText type count constant)] := by
  unfold constantLines
  exact .after fun marks => .pure ⟨marks, rfl⟩

theorem enumLines_lists (indent : Nat) :
    Yields (enumLines sheet indent id) (sheet.ListsConstants id) := by
  have hconstants : Yields ((sheet.graph.get id).constants.zipIdx.mapM
      (constantLines sheet (indent + 1) id (sheet.graph.get id).enumValueType
        (sheet.graph.get id).constants.length)) _ :=
    Yields.mapM_forall₂ fun constant => constantLines_yields (indent + 1) _ _ constant
  unfold enumLines
  refine .after fun heading => .after fun name => hconstants.bind fun written hwritten => ?_
  have hbody : ∀ opening semicolon after : Lines, Yields
      (pure (heading ++ (opening ++ (semicolon ++ (written.flatten ++ after)))) : Importing Lines)
      (sheet.ListsConstants id) := fun opening semicolon after =>
    .pure ⟨indent + 1, heading ++ opening ++ semicolon, written, after, by simp, hwritten⟩
  refine .after fun _ => .after fun _ => ?_
  simp only [List.append_assoc, pure_bind]
  split
  · exact .after fun _ => .after fun _ => hbody _ _ _
  · exact hbody _ _ _

theorem declarationLines_lists (hkind : (sheet.graph.get id).kind = .enum) {fuel indent : Nat}
    {top : TypeId} (h : id ∈ sheet.graph.inside fuel top) :
    Yields (declarationLines sheet fuel indent top) (sheet.ListsConstants id) := by
  refine declarationLines_yields (fun _ ahead behind hlines => hlines.within ahead behind)
    (fun indent => ?_) h
  rw [openLines, hkind]
  exact enumLines_lists indent

/-- A whole number as a literal of the type, in the range of the type. -/
inductive WholeLiteral : TypeRef → String → Prop
  | int {n : Int} (primitive : Bool) (hleast : -2147483648 ≤ n) (hmost : n ≤ 2147483647) :
      WholeLiteral (.scalar .integer primitive) (toString n)
  | long {n : Int} (primitive : Bool) (hleast : JsonNumber.signedMin ≤ n)
      (hmost : n ≤ JsonNumber.signedMax) : WholeLiteral (.scalar .long primitive)
      (toString n ++ "L")

theorem WholeLiteral.isArgument {text : String} (h : WholeLiteral type text) :
    (argument? type text).isSome := by
  cases h with
  | int primitive hleast hmost =>
    rw [argument?_of_readsAs (int_readsAs _), if_pos ⟨hleast, hmost⟩]
    rfl
  | long primitive hleast hmost =>
    rw [argument?_of_readsAs (long_readsAs _), if_pos ⟨hleast, hmost⟩]
    rfl

theorem enumValue?_int {primitive : Bool} : (enumValue? (.scalar .integer primitive) value).isSome ↔
    ∃ n, value = .number (.integer n) ∧ -2147483648 ≤ n ∧ n ≤ 2147483647 := by
  cases value with
  | number n => cases n <;> simp [enumValue?]
  | _ => simp [enumValue?]

theorem enumValue?_long {primitive : Bool} : (enumValue? (.scalar .long primitive) value).isSome ↔
    ∃ n, value = .number (.integer n) ∧ JsonNumber.signedMin ≤ n ∧ n ≤ JsonNumber.signedMax := by
  cases value with
  | number n => cases n <;> simp [enumValue?]
  | _ => simp [enumValue?]

theorem wholeLiteral_iff (hvalue : ∀ n ∈ value.number?, n.WellFormed) {wide primitive : Bool}
    (htype : type = .scalar (if wide then .long else .integer) primitive) :
    WholeLiteral type (enumLiteral type value) ↔ (enumValue? type value).isSome := by
  constructor
  · intro h
    rw [← argument?_enumLiteral hvalue]
    exact h.isArgument
  · intro h
    subst htype
    cases wide with
    | false =>
      obtain ⟨n, rfl, hleast, hmost⟩ := enumValue?_int.mp h
      exact .int primitive hleast hmost
    | true =>
      obtain ⟨n, rfl, hleast, hmost⟩ := enumValue?_long.mp h
      exact .long primitive hleast hmost

theorem stringLiteral_inj {text other : String} (h : stringLiteral text = stringLiteral other) :
    text = other := by
  have hread := stringLiteral_readsAs text [')'] (stops_mark (by decide) [])
  rw [h, stringLiteral_readsAs other [')'] (stops_mark (by decide) [])] at hread
  simp only [Option.map_some, Option.some.injEq, Prod.mk.injEq, Value.string.injEq,
    and_true] at hread
  exact (String.toList_injective
    (List.map_injective_iff.mpr (fun _ _ => Input.char.inj) hread)).symm

def numberSuffix : TypeRef → String
  | .scalar .long _ => "L"
  | .scalar .double _ => "D"
  | _ => ""

/-- A literal is in quotes, or it is the text of a number or a truth value, the number with a
suffix. -/
theorem enumLiteral_cases (type : TypeRef) (value : Json) :
    enumLiteral type value = stringLiteral value.plainText ∨
      (∃ n, value = .number n ∧ enumLiteral type value = value.plainText ++ numberSuffix type) ∨
        ∃ b, value = .bool b ∧ enumLiteral type value = value.plainText := by
  cases type with
  | scalar scalar primitive =>
    cases value with
    | number n =>
      refine .inr (.inl ⟨n, rfl, ?_⟩)
      cases scalar <;> first | rfl | exact String.append_empty.symm
    | bool b =>
      refine .inr (.inr ⟨b, rfl, ?_⟩)
      cases scalar <;> rfl
    | _ =>
      refine .inl ?_
      cases scalar <;> rfl
  | _ => cases value <;> exact .inl rfl

theorem number_ne_stringLiteral {n : JsonNumber} (hn : n.WellFormed) (suffix text : String) :
    n.text ++ suffix ≠ stringLiteral text := by
  obtain ⟨body, decimal, htext, hnumeral, -⟩ := JsonNumber.text_numeral hn
  obtain ⟨c, more, rfl, hc⟩ := hnumeral.head
  intro h
  have hhead := congrArg (fun text : String => text.toList.head?) h
  simp only [String.toList_append, htext, stringLiteral] at hhead
  cases hsign : n.isNegative with
  | true =>
    rw [hsign] at hhead
    exact absurd (Option.some.inj hhead) (by decide)
  | false =>
    rw [hsign] at hhead
    obtain rfl : c = '"' := Option.some.inj hhead
    cases hc

theorem bool_ne_stringLiteral (b : Bool) (text : String) :
    (Json.bool b).text ≠ stringLiteral text := by
  intro h
  have hhead := congrArg (fun text : String => text.toList.head?) h
  simp only [stringLiteral, String.toList_append] at hhead
  cases b <;> exact absurd (Option.some.inj hhead) (by decide)

theorem bool_of_number {b : Bool} {n : JsonNumber}
    (h : (Json.bool b).text = n.text ++ numberSuffix type) : (Json.bool b).text = n.text := by
  have hsuffix : numberSuffix type = "" ∨ numberSuffix type = "L" ∨ numberSuffix type = "D" := by
    unfold numberSuffix
    split <;> simp
  have hlast := congrArg (fun text : String => text.toList.getLast?) h
  rcases hsuffix with hsuffix | hsuffix | hsuffix
  · rw [h, hsuffix, String.append_empty]
  all_goals
    rw [hsuffix] at hlast
    simp only [String.toList_append] at hlast
    cases b <;> simp [Json.text] at hlast

theorem plainText_of_enumLiteral {other : Json} (hvalue : ∀ n ∈ value.number?, n.WellFormed)
    (hother : ∀ n ∈ other.number?, n.WellFormed)
    (h : enumLiteral type value = enumLiteral type other) : value.plainText = other.plainText := by
  -- The first character tells quotes from the rest, and the last one truth values from numbers.
  rcases enumLiteral_cases type value with hv | ⟨n, rfl, hv⟩ | ⟨b, rfl, hv⟩ <;>
    rcases enumLiteral_cases type other with ho | ⟨m, rfl, ho⟩ | ⟨c, rfl, ho⟩ <;> rw [hv, ho] at h
  · exact stringLiteral_inj h
  · exact absurd h.symm (number_ne_stringLiteral (hother m rfl) _ _)
  · exact absurd h.symm (bool_ne_stringLiteral c _)
  · exact absurd h (number_ne_stringLiteral (hvalue n rfl) _ _)
  · exact (String.append_left_inj _).mp h
  · exact (bool_of_number h.symm).symm
  · exact absurd h (bool_ne_stringLiteral b _)
  · exact bool_of_number h
  · exact h

def Value.spelling : Value → List Input
  | .string text => text
  | .int n | .long n => (toString n).toList.map .char
  | .boolean b => (Json.bool b).text.toList.map .char
  | .float _ _ | .double _ _ => []

theorem spelling_eq {v : Value} (hdouble : ∀ primitive, type ≠ .scalar .double primitive)
    (h : enumValue? type value = some v) : v.spelling = value.plainText.toList.map .char := by
  unfold enumValue? at h
  split at h
  · cases h
    rfl
  · split at h <;> cases h
    rfl
  · split at h <;> cases h
    rfl
  · exact absurd rfl (hdouble _)
  · cases h
    rfl
  · cases h

theorem plainText_of_enumValue? {other : Json} {v : Value}
    (hdouble : ∀ primitive, type ≠ .scalar .double primitive)
    (h : enumValue? type value = some v) (k : enumValue? type other = some v) :
    value.plainText = other.plainText := by
  have hchars := (spelling_eq hdouble h).symm.trans (spelling_eq hdouble k)
  exact String.toList_injective (List.map_injective_iff.mpr (fun _ _ => Input.char.inj) hchars)

/-- The values are written differently, and they stand for one value of the type only as doubles. -/
structure Apart (type : TypeRef) (value other : Json) : Prop where
  written : enumLiteral type value ≠ enumLiteral type other
  values : (∀ primitive, type ≠ .scalar .double primitive) → ∀ v,
    enumValue? type value = some v → enumValue? type other ≠ some v

theorem apart_of_plainText {other : Json} (hvalue : ∀ n ∈ value.number?, n.WellFormed)
    (hother : ∀ n ∈ other.number?, n.WellFormed) (h : value.plainText ≠ other.plainText) :
    Apart type value other where
  written hsame := h (plainText_of_enumLiteral hvalue hother hsame)
  values hdouble _ hv ho := h (plainText_of_enumValue? hdouble hv ho)

theorem find?_reverse_iff {α β : Type} [DecidableEq β] {xs : List α} (hxs : xs.Nodup) (f : α → β) :
    (∀ x ∈ xs, xs.reverse.find? (fun y => decide (f y = f x)) = some x) ↔ (xs.map f).Nodup := by
  rw [List.nodup_map_iff_inj_on hxs]
  constructor
  · intro h x hx y hy heq
    have hsame := h x hx
    rw [heq, h y hy] at hsame
    exact (Option.some.inj hsame).symm
  · intro h x hx
    cases hfind : xs.reverse.find? (fun y => decide (f y = f x)) with
    | none =>
      have hnone := List.find?_eq_none.mp hfind x (List.mem_reverse.mpr hx)
      simp at hnone
    | some y =>
      have hy := List.mem_reverse.mp (List.mem_of_find?_eq_some hfind)
      have heq := List.find?_some hfind
      rw [h y hy x hx (by simpa using heq)]

/-- The look-up takes the literal of every constant back to the constant. -/
def Inverts (decl : TypeDecl) : Prop :=
  ∀ c ∈ decl.constants, lookUp? decl (enumLiteral decl.enumValueType c.value) = some c

/-- All literals stand for values of the type, and for different ones. -/
structure Discerns (decl : TypeDecl) : Prop where
  valued : ∀ c ∈ decl.constants, (enumValue? decl.enumValueType c.value).isSome
  distinct : (decl.constants.map fun c => enumValue? decl.enumValueType c.value).Nodup

theorem inverts_iff (hnames : (decl.constants.map (·.name)).Nodup)
    (hconstants : ∀ c ∈ decl.constants, ∀ n ∈ c.value.number?, n.WellFormed) :
    Inverts decl ↔ Discerns decl := by
  -- Literals are compared as Java reads them, so by the values that they stand for.
  have hlook : ∀ c ∈ decl.constants, lookUp? decl (enumLiteral decl.enumValueType c.value) =
      (enumValue? decl.enumValueType c.value).bind fun _ =>
      decl.constants.reverse.find? fun other =>
        decide (enumValue? decl.enumValueType other.value =
          enumValue? decl.enumValueType c.value) := by
    intro c hc
    rw [lookUp?, argument?_enumLiteral (hconstants c hc)]
    cases enumValue? decl.enumValueType c.value with
    | none => rfl
    | some v =>
      refine List.find?_congr fun other hother => ?_
      rw [argument?_enumLiteral (hconstants other (List.mem_reverse.mp hother))]
  have hfind := find?_reverse_iff (List.Nodup.of_map _ hnames)
    fun c => enumValue? decl.enumValueType c.value
  constructor
  · intro h
    have hvalid : ∀ c ∈ decl.constants, (enumValue? decl.enumValueType c.value).isSome := by
      intro c hc
      have hsome := h c hc
      rw [hlook c hc, Option.bind_eq_some_iff] at hsome
      obtain ⟨v, hv, -⟩ := hsome
      exact Option.isSome_of_mem hv
    refine ⟨hvalid, hfind.mp fun c hc => ?_⟩
    obtain ⟨v, hv⟩ := Option.isSome_iff_exists.mp (hvalid c hc)
    rw [← h c hc, hlook c hc, hv]
    rfl
  · intro ⟨hvalid, hdistinct⟩ c hc
    obtain ⟨v, hv⟩ := Option.isSome_iff_exists.mp (hvalid c hc)
    have hself := hfind.mpr hdistinct c hc
    rw [hlook c hc]
    rw [hv] at hself ⊢
    exact hself

end SchemaBeans.Java
