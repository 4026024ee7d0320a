import SchemaBeans.Proofs.Java.Initializers

/-! # Enums that are looked up

An enum keeps its constants by their values, the last one under each value. A default of an enum
type is written as a look-up if it is of the kind of the values. The argument of the look-up and
those of the constants have to be literals of the type of the values, and the look-up finds a
constant exactly if the default has the value of one. -/
namespace SchemaBeans.Java

variable {type : TypeRef} {value : Json} {decl : TypeDecl}

def Value.HasType : Value → TypeRef → Bool
  | .string _, .string => true
  | .int _, .scalar .integer _ => true
  | .long _, .scalar .long _ => true
  | .float _ _, .scalar .float _ => true
  | .double _ _, .scalar .double _ => true
  | .boolean _, .scalar .boolean _ => true
  | _, _ => false

def argument? (type : TypeRef) (text : String) : Option Value :=
  (readLiteral? (inputs (text.toList ++ [')']))).bind fun (value, rest) =>
    if rest = [.char ')'] ∧ value.HasType type then some value else none

/-- The constant that an enum has for an argument. A later constant takes the place of an earlier
one with the same value. -/
def lookUp? (decl : TypeDecl) (text : String) : Option EnumConstant :=
  (argument? decl.enumValueType text).bind fun value =>
    decl.constants.reverse.find? fun constant =>
      argument? decl.enumValueType (enumLiteral decl.enumValueType constant.value) = some value

/-- The value that a JSON value stands for among the values of an enum. -/
def enumValue? : TypeRef → Json → Option Value
  | .string, value => some (.string (value.plainText.toList.map .char))
  | .scalar .integer _, .number (.integer n) =>
    if -2147483648 ≤ n ∧ n ≤ 2147483647 then some (.int n) else none
  | .scalar .long _, .number (.integer n) =>
    if JsonNumber.signedMin ≤ n ∧ n ≤ JsonNumber.signedMax then some (.long n) else none
  | .scalar .double _, .number n =>
    (floating? .double n.written).map (.double n.isNegative)
  | .scalar .boolean _, .bool b => some (.boolean b)
  | _, _ => none

theorem argument?_of_readsAs {text : String} {found : Option Value} (h : ReadsAs text found) :
    argument? type text = found.filter (·.HasType type) := by
  have hends : inputs [')'] = [.char ')'] := rfl
  rw [argument?, h [')'] (stops_mark (by decide) []), hends]
  cases found with
  | none => rfl
  | some v => by_cases hv : v.HasType type <;> simp [Option.filter, hv]

theorem filter_map_double {size : Option ℚ} {negative : Bool} {scalar : Scalar} {primitive : Bool} :
    (size.map (Value.double negative)).filter (·.HasType (.scalar scalar primitive)) =
      if scalar = .double then size.map (Value.double negative) else none := by
  cases size <;> cases scalar <;> rfl

theorem argument?_enumLiteral (hvalue : ∀ n ∈ value.number?, n.WellFormed) :
    argument? type (enumLiteral type value) = enumValue? type value := by
  have hstring : ∀ text, argument? type (stringLiteral text) =
      (some (.string (text.toList.map .char))).filter (·.HasType type) :=
    fun text => argument?_of_readsAs (stringLiteral_readsAs text)
  cases type with
  | any | library | generated | list | set => exact hstring _
  | string =>
    cases value <;> exact hstring _
  | scalar scalar primitive =>
    cases value with
    | null | string | array | object => cases scalar <;> exact hstring _
    | bool b =>
      have hread : argument? (.scalar scalar primitive) _ = _ :=
        argument?_of_readsAs (bool_readsAs b)
      cases scalar <;> exact hread
    | number n =>
      have hn := hvalue n rfl
      cases n with
      | integer k =>
        have hint : argument? (.scalar scalar primitive) _ = _ :=
          argument?_of_readsAs (int_readsAs k)
        have hlong : argument? (.scalar .long primitive) _ = _ :=
          argument?_of_readsAs (long_readsAs k)
        cases scalar with
        | integer => exact hint.trans (by simp only [enumValue?]; split <;> rfl)
        | long => exact hlong.trans (by simp only [enumValue?]; split <;> rfl)
        | double => exact (argument?_of_readsAs (double_readsAs hn)).trans filter_map_double
        | float | boolean => exact hint.trans (by simp only [enumValue?]; split <;> rfl)
      | float x =>
        have hplain : argument? (.scalar scalar primitive) _ = _ :=
          argument?_of_readsAs (plain_readsAs hn)
        cases scalar with
        | long => exact argument?_of_readsAs (longDouble_readsAs hn)
        | double => exact (argument?_of_readsAs (double_readsAs hn)).trans filter_map_double
        | integer | float | boolean => exact hplain.trans filter_map_double

def Agree (type : TypeRef) (value other : Json) : Prop :=
  (enumValue? type value).isSome ∧ enumValue? type other = enumValue? type value

theorem lookUp?_isSome (hvalue : ∀ n ∈ value.number?, n.WellFormed)
    (hconstants : ∀ c ∈ decl.constants, ∀ n ∈ c.value.number?, n.WellFormed) :
    (lookUp? decl (enumLiteral decl.enumValueType value)).isSome ↔
      ∃ c ∈ decl.constants, Agree decl.enumValueType value c.value := by
  unfold lookUp? Agree
  rw [argument?_enumLiteral hvalue]
  cases henum : enumValue? decl.enumValueType value with
  | none => simp
  | some v =>
    rw [Option.bind_some, List.find?_isSome]
    simp only [List.mem_reverse, decide_eq_true_eq, Option.isSome_some, true_and]
    refine exists_congr fun c => and_congr_right fun hc => ?_
    rw [argument?_enumLiteral (hconstants c hc)]

variable {sheet : Sheet} {e : TypeId}

def Sheet.call (sheet : Sheet) (e : TypeId) (literal : String) : String :=
  " = " ++ (sheet.graph.binaryName e ++ ".fromValue(" ++ literal ++ ")")

theorem Sheet.call_inj {left right : String} (h : sheet.call e left = sheet.call e right) :
    left = right := by
  have hcall := assignment_inj h
  rw [← String.toList_inj] at hcall
  simp only [String.toList_append, List.append_cancel_right_eq, List.append_cancel_left_eq] at hcall
  exact String.toList_inj.mp hcall

theorem Sheet.call_length (sheet : Sheet) (e : TypeId) (literal : String) :
    15 ≤ (sheet.call e literal).length := by
  have hcall : " = ".length = 3 ∧ ".fromValue(".length = 11 ∧ ")".length = 1 := by decide
  simp only [Sheet.call, String.length_append, hcall]
  omega

theorem enumInitializer_yields (henum : (sheet.graph.get e).kind = .enum) (value : Json) :
    Yields (initializer sheet (.generated e) (some value)) (· =
      if value.isNull then " = null"
      else if fitsEnum (sheet.graph.get e).enumValueType value then
        sheet.call e (enumLiteral (sheet.graph.get e).enumValueType value)
      else "") := by
  cases hnull : value.isNull with
  | true =>
    refine .bind (P := (· = some " = null")) ?_ fun stated hstated => ?_
    · unfold defaultInitializer?
      rw [hnull]
      exact .pure rfl
    · rw [hstated]
      exact .pure rfl
  | false =>
    have hliteral : Yields (literal? sheet (.generated e) value) (· =
        if fitsEnum (sheet.graph.get e).enumValueType value then
          some (sheet.graph.binaryName e ++ ".fromValue(" ++
            enumLiteral (sheet.graph.get e).enumValueType value ++ ")") else none) := by
      unfold literal?
      simp only [henum]
      split
      · exact (typeName_yields false (.generated e)).bind fun name hname => .pure (by
          rw [hname]
          rfl)
      · exact .pure rfl
    refine fun before => (initializer_yields
      (defaultInitializer?_yields_literal hnull rfl hliteral) before).trans ?_
    rw [if_neg Bool.false_ne_true]
    split
    · rfl
    · have hempty : sheet.emptyText (.generated e) = "" := by
        unfold Sheet.emptyText
        cases sheet.settings.initializeCollections <;> rfl
      exact hempty

theorem calls_find_iff {text : String} (htext : text = if value.isNull then " = null"
      else if fitsEnum (sheet.graph.get e).enumValueType value then
        sheet.call e (enumLiteral (sheet.graph.get e).enumValueType value) else "")
    (hvalue : ∀ n ∈ value.number?, n.WellFormed)
    (hconstants : ∀ c ∈ (sheet.graph.get e).constants, ∀ n ∈ c.value.number?, n.WellFormed) :
    (∀ literal, text = sheet.call e literal → (lookUp? (sheet.graph.get e) literal).isSome) ↔
      (value.isNull = false → fitsEnum (sheet.graph.get e).enumValueType value = true →
        ∃ c ∈ (sheet.graph.get e).constants,
          Agree (sheet.graph.get e).enumValueType value c.value) := by
  have hshort : text.length < 15 → ∀ literal, text ≠ sheet.call e literal := by
    rintro hless literal rfl
    exact absurd (sheet.call_length e literal) (not_le.mpr hless)
  rw [← lookUp?_isSome hvalue hconstants]
  cases hnull : value.isNull with
  | true =>
    rw [hnull, if_pos rfl] at htext
    exact iff_of_true (fun literal heq => absurd heq (hshort (by rw [htext]; decide) literal)) nofun
  | false =>
    rw [hnull, if_neg Bool.false_ne_true] at htext
    cases hfits : fitsEnum (sheet.graph.get e).enumValueType value with
    | false =>
      rw [hfits, if_neg Bool.false_ne_true] at htext
      exact iff_of_true (fun literal heq => absurd heq (hshort (by rw [htext]; decide) literal))
        fun _ => nofun
    | true =>
      rw [hfits, if_pos rfl] at htext
      constructor
      · exact fun h _ _ => h _ htext
      · intro h literal heq
        rw [← Sheet.call_inj (htext.symm.trans heq)]
        exact h rfl rfl

end SchemaBeans.Java
