import SchemaBeans.Proofs.Java.Expressions
import SchemaBeans.Proofs.Java.Headers

/-! # Initializers

A default of a basic type is written as an expression that denotes it. A number is taken for a
field in single precision whatever its size, and an item that does not fit is left out of its
collection. These are the ways in which what is written is not the whole default: otherwise it is
all of it, and what is not written is ignored. -/
namespace SchemaBeans

/-- A string, a scalar, or lists and sets of them. -/
inductive TypeRef.Basic : TypeRef → Prop
  | string : Basic .string
  | scalar (scalar : Scalar) (primitive : Bool) : Basic (.scalar scalar primitive)
  | list {element : TypeRef} : Basic element → Basic (.list element)
  | set {element : TypeRef} : Basic element → Basic (.set element)

/-- The numbers that a default can state: itself, or its items. -/
def Json.numbers : Json → List JsonNumber
  | .array items => items.filterMap Json.number?
  | value => value.number?.toList

namespace Java

open TypeRef (Basic)

variable {sheet : Sheet} {type element : TypeRef} {value : Json} {text : String}

def Sheet.emptyText (sheet : Sheet) (type : TypeRef) : String :=
  match sheet.settings.initializeCollections, collection? type with
  | true, some (implementation, element) =>
    " = new " ++ implementation ++ "<" ++ sheet.typeText true element ++ ">()"
  | _, _ => ""

def Sheet.collectionText? (sheet : Sheet) (implementation : String) (element : TypeRef)
    (literals : List String) : Option String :=
  if literals.isEmpty then none
  else some (" = " ++ newCollection implementation (sheet.typeText true element) literals)

theorem emptyInitializer_yields (type : TypeRef) :
    Yields (emptyInitializer sheet type) (· = sheet.emptyText type) := by
  unfold emptyInitializer Sheet.emptyText
  cases sheet.settings.initializeCollections with
  | false => exact .pure rfl
  | true =>
    cases collection? type with
    | none => exact .pure rfl
    | some found =>
      exact .after fun _ => (typeName_yields true found.2).bind fun name hname =>
        .pure (by rw [hname])

theorem defaultInitializer?_yields_literal {literal : Option String} (hnull : value.isNull = false)
    (htype : collection? type = none) (h : Yields (literal? sheet type value) (· = literal)) :
    Yields (defaultInitializer? sheet type value) (· = literal.map (" = " ++ ·)) := by
  unfold defaultInitializer?
  rw [hnull, if_neg Bool.false_ne_true, htype]
  exact h.bind fun found hfound => .pure (by rw [hfound])

theorem defaultInitializer?_yields_collection {implementation : String}
    {literal : Json → Option String} (hnull : value.isNull = false)
    (htype : collection? type = some (implementation, element))
    (h : ∀ item, Yields (literal? sheet element item) (· = literal item)) :
    Yields (defaultInitializer? sheet type value) (· = sheet.collectionText? implementation element
      ((value.array?.getD []).filterMap literal)) := by
  unfold defaultInitializer?
  rw [hnull, if_neg Bool.false_ne_true, htype]
  cases value.array? with
  | none => exact .pure rfl
  | some items =>
    refine (Yields.mapM h).bind fun found hfound => ?_
    have hliterals : found.filterMap id = items.filterMap literal := by
      rw [hfound, List.filterMap_map]
      rfl
    rw [hliterals, Option.getD_some]
    unfold Sheet.collectionText?
    dsimp only
    split
    · exact .pure rfl
    · refine .after fun _ => .after fun _ => (typeName_yields true element).bind
        fun name hname => .pure ?_
      rw [hname, newCollection, Option.some.injEq, ← String.toList_inj]
      simp

theorem initializer_yields {stated : Option String}
    (h : Yields (defaultInitializer? sheet type value) (· = stated)) :
    Yields (initializer sheet type (some value)) (· = stated.getD (sheet.emptyText type)) := by
  refine h.bind fun found hfound => ?_
  rw [hfound]
  cases stated with
  | none => exact emptyInitializer_yields type
  | some text => exact .pure rfl

def literalOf? : TypeRef → Json → Option String
  | .string, .string text => some (stringLiteral text)
  | .string, .number n => some ("\"" ++ n.text ++ "\"")
  | .string, .bool b => some ("\"" ++ (Json.bool b).text ++ "\"")
  | .scalar scalar _, value => scalarLiteral? scalar value
  | _, _ => none

def valueOf? : TypeRef → Json → Option Value
  | .string, value => some (.string (value.plainText.toList.map .char))
  | .scalar .boolean _, .bool b => some (.boolean b)
  | .scalar .integer _, .number (.integer n) => some (.int n)
  | .scalar .long _, .number (.integer n) => some (.long n)
  | .scalar .float _, .number n =>
    (floating? .single n.written).map (.float n.isNegative)
  | .scalar .double _, .number n =>
    (floating? .double n.written).map (.double n.isNegative)
  | _, _ => none

theorem escape_of_plain (h : ∀ c ∈ text.toList, escapedChar c = [c]) : escape text = text := by
  rw [escape, ← String.toList_inj, String.toList_ofList]
  generalize text.toList = chars at h
  induction chars with
  | nil => rfl
  | cons c rest ih =>
    rw [List.forall_mem_cons] at h
    rw [List.flatMap_cons, h.1, ih h.2, List.singleton_append]

theorem escape_number {n : JsonNumber} (h : n.WellFormed) : escape n.text = n.text := by
  obtain ⟨body, decimal, htext, hnumeral, -⟩ := JsonNumber.text_numeral h
  refine escape_of_plain fun c hc => ?_
  have hfigure := isFigure_numeral hnumeral n.isNegative c (htext ▸ hc)
  unfold escapedChar
  split_ifs with h1 h2 h3 h4 h5
  · exact absurd hfigure (by rw [h1]; decide)
  · exact absurd hfigure (by rw [h2]; decide)
  · exact absurd hfigure (by rw [h3]; decide)
  · exact absurd hfigure (by rw [h4]; decide)
  · exact absurd hfigure (by rw [h5]; decide)
  · rfl

theorem escape_bool (b : Bool) : escape (Json.bool b).text = (Json.bool b).text := by
  cases b <;> simp only [Json.text] <;> decide

theorem literal?_basic (htype : type.Basic) (value : Json) :
    Yields (literal? sheet type value) (· = literalOf? type value) := by
  cases htype with
  | string => cases value <;> exact .pure rfl
  | scalar => exact .pure rfl
  | list | set => exact .pure rfl

theorem toSigned?_eq_some {n : JsonNumber} {k : Int} (h : n.toSigned? = some k) :
    n = .integer k ∧ JsonNumber.signedMin ≤ k ∧ k ≤ JsonNumber.signedMax := by
  unfold JsonNumber.toSigned? at h
  split at h
  · split at h
    · cases h
      exact ⟨rfl, ‹_›⟩
    · cases h
  · cases h

theorem literalOf?_reads (hvalue : ∀ n ∈ value.number?, n.WellFormed)
    (h : literalOf? type value = some text) :
    Opens text ∧ ReadsAs text (valueOf? type value) := by
  unfold literalOf? at h
  split at h
  · cases h
    exact ⟨opens_stringLiteral _, stringLiteral_readsAs _⟩
  · rename_i n
    obtain rfl := Option.some.inj h
    have hquoted : "\"" ++ n.text ++ "\"" = stringLiteral n.text := by
      rw [stringLiteral, escape_number (hvalue n rfl)]
    have hplain : (Json.number n).plainText = n.text := by simp only [Json.plainText, Json.text]
    rw [hquoted, valueOf?, hplain]
    exact ⟨opens_stringLiteral _, stringLiteral_readsAs _⟩
  · rename_i b
    obtain rfl := Option.some.inj h
    have hquoted : "\"" ++ (Json.bool b).text ++ "\"" = stringLiteral (Json.bool b).text := by
      rw [stringLiteral, escape_bool]
    rw [hquoted]
    exact ⟨opens_stringLiteral _, stringLiteral_readsAs _⟩
  · rename_i scalar primitive value
    unfold scalarLiteral? at h
    split at h
    · cases h
      exact ⟨opens_bool _, bool_readsAs _⟩
    · rename_i n
      have hn := hvalue n rfl
      obtain ⟨k, hk, rfl⟩ := Option.map_eq_some_iff.mp h
      rw [Option.filter_eq_some_iff] at hk
      obtain ⟨hk, hrange⟩ := hk
      obtain ⟨rfl, -⟩ := toSigned?_eq_some hk
      have hreads := int_readsAs k
      rw [if_pos (by simpa using hrange)] at hreads
      exact ⟨opens_number hn, hreads⟩
    · rename_i n
      have hn := hvalue n rfl
      obtain ⟨k, hk, rfl⟩ := Option.map_eq_some_iff.mp h
      obtain ⟨rfl, hrange⟩ := toSigned?_eq_some hk
      have hreads := long_readsAs k
      rw [if_pos hrange] at hreads
      exact ⟨(opens_number hn).append "L", hreads⟩
    · rename_i n
      cases h
      exact ⟨(opens_number (hvalue n rfl)).append "D", double_readsAs (hvalue n rfl)⟩
    · rename_i n
      cases h
      exact ⟨(opens_number (hvalue n rfl)).append "F", float_readsAs (hvalue n rfl)⟩
    · cases h
  · cases h

def Fits : TypeRef → Json → Prop
  | .string, .string _ => True
  | .string, .number _ => True
  | .string, .bool _ => True
  | .scalar .boolean _, .bool _ => True
  | .scalar .integer _, .number (.integer n) => -2147483648 ≤ n ∧ n ≤ 2147483647
  | .scalar .long _, .number (.integer n) => JsonNumber.signedMin ≤ n ∧ n ≤ JsonNumber.signedMax
  | .scalar .float _, .number n => |n.rational| ≤ Format.single.greatest
  | .scalar .double _, .number n => |n.rational| ≤ Format.double.greatest
  | .list element, .array items => ∀ item ∈ items, Fits element item
  | .set element, .array items => ∀ item ∈ items, Fits element item
  | _, _ => False

def Written : TypeRef → Json → Prop
  | .scalar .float _, .number _ => True
  | .list _, _ => False
  | .set _, _ => False
  | type, value => Fits type value

/-- The value is a number that is lost in single precision, although it is none without size. -/
def Vanishes : TypeRef → Json → Prop
  | .scalar .float _, .number n => n.rational ≠ 0 ∧ Format.single.round n.written = 0
  | _, _ => False

/-- The value of the literal is the value, rounded to the nearest number in floating point. -/
def Means : TypeRef → Json → Value → Prop
  | .string, value, .string text => text = value.plainText.toList.map .char
  | .scalar .boolean _, .bool b, .boolean found => found = b
  | .scalar .integer _, .number (.integer n), .int found => found = n
  | .scalar .long _, .number (.integer n), .long found => found = n
  | .scalar .float _, .number n, .float negative size =>
    negative = n.isNegative ∧ Format.single.NearestTo size |n.rational|
  | .scalar .double _, .number n, .double negative size =>
    negative = n.isNegative ∧ Format.double.NearestTo size |n.rational|
  | _, _, _ => False

theorem floating?_eq_some {f : Format} {x : ℚ} (hzero : f.round x = 0 → x = 0)
    (hle : f.round x ≤ f.greatest) : floating? f x = some (f.round x) := by
  rw [floating?, if_neg]
  rintro (⟨h, hne⟩ | h)
  · exact hne (hzero h)
  · exact absurd hle (not_le.mpr h)

theorem written_of_fits (h : Fits type value) (hsingle : collection? type = none) :
    Written type value := by
  unfold Written
  split
  · trivial
  · cases hsingle
  · cases hsingle
  · exact h

theorem literalOf?_isSome (hvalue : ∀ n ∈ value.number?, n.WellFormed) :
    (literalOf? type value).isSome ↔ Written type value := by
  cases type with
  | string => cases value <;> simp [literalOf?, Written, Fits]
  | scalar scalar primitive =>
    cases value with
    | number n =>
      cases scalar with
      | integer =>
        cases n with
        | integer n =>
          rw [literalOf?, scalarLiteral?, Option.isSome_map]
          change _ ↔ -2147483648 ≤ n ∧ n ≤ 2147483647
          by_cases hn : JsonNumber.signedMin ≤ n ∧ n ≤ JsonNumber.signedMax
          · simp [JsonNumber.toSigned?, hn]
          · simp only [JsonNumber.toSigned?, if_neg hn]
            simp only [JsonNumber.signedMin, JsonNumber.signedMax] at hn
            simp
            omega
        | float x => simp [literalOf?, scalarLiteral?, JsonNumber.toSigned?, Written, Fits]
      | long =>
        cases n with
        | integer n => simp [literalOf?, scalarLiteral?, JsonNumber.toSigned?, Written, Fits]
        | float x => simp [literalOf?, scalarLiteral?, JsonNumber.toSigned?, Written, Fits]
      | float => simp [literalOf?, scalarLiteral?, Written]
      | double =>
        simp [literalOf?, scalarLiteral?, Written, Fits,
          JsonNumber.abs_rational_le_double (hvalue n rfl)]
      | boolean => simp [literalOf?, scalarLiteral?, Written, Fits]
    | null | bool | string | array | object =>
      cases scalar <;> simp [literalOf?, scalarLiteral?, Written, Fits]
  | any | library | generated => simp [literalOf?, Written, Fits]
  | list | set => simp [literalOf?, Written]

theorem valueOf?_means (hvalue : ∀ n ∈ value.number?, n.WellFormed) (hfits : Fits type value)
    (hsingle : collection? type = none) (hvanish : ¬ Vanishes type value) :
    ∃ v, valueOf? type value = some v ∧ Means type value v := by
  unfold Fits at hfits
  split at hfits
  · exact ⟨_, rfl, rfl⟩
  · exact ⟨_, rfl, rfl⟩
  · exact ⟨_, rfl, rfl⟩
  · exact ⟨_, rfl, rfl⟩
  · exact ⟨_, rfl, rfl⟩
  · exact ⟨_, rfl, rfl⟩
  · rename_i n
    have hn := hvalue n rfl
    have hnearest := JsonNumber.single_nearestTo hn hfits
    have hfound := floating?_eq_some (f := .single) (x := n.written)
      (fun hzero => (JsonNumber.written_eq_zero hn).mpr
        (by_contra fun hne => hvanish ⟨hne, hzero⟩)) hnearest.holds.le
    refine ⟨.float n.isNegative (Format.single.round n.written), ?_, rfl, hnearest⟩
    rw [valueOf?, hfound, Option.map_some]
  · rename_i n
    have hn := hvalue n rfl
    have hnearest := JsonNumber.double_nearestTo hn
    have hfound := floating?_eq_some (f := .double) (x := n.written)
      (fun hzero => (JsonNumber.written_eq_zero hn).mpr (JsonNumber.double_round_eq_zero hn hzero))
      hnearest.holds.le
    refine ⟨.double n.isNegative (Format.double.round n.written), ?_, rfl, hnearest⟩
    rw [valueOf?, hfound, Option.map_some]
  · cases hsingle
  · cases hsingle
  · exact hfits.elim

theorem valueOf?_of_vanishes (hvalue : ∀ n ∈ value.number?, n.WellFormed)
    (h : Vanishes type value) : valueOf? type value = none := by
  unfold Vanishes at h
  split at h
  · rename_i n
    have hwritten : n.written ≠ 0 := fun hzero =>
      h.1 ((JsonNumber.written_eq_zero (hvalue n rfl)).mp hzero)
    rw [valueOf?, floating?, if_pos (.inl ⟨h.2, hwritten⟩)]
    rfl
  · exact h.elim

def partType (type : TypeRef) : TypeRef := ((collection? type).map Prod.snd).getD type

/-- The values that are written as literals: the items of a collection, or the default itself. -/
def parts (type : TypeRef) (value : Json) : List Json :=
  if (collection? type).isSome then value.array?.getD [] else [value]

/-- The expression means the value. A collection is the one of its type and has all items in
order. -/
def Sheet.Means (sheet : Sheet) (type : TypeRef) (value : Json) : Expression → Prop
  | .literal found => collection? type = none ∧ Java.Means type value found
  | .collection implementation name found => ∃ element items,
    collection? type = some (implementation, element) ∧ value = .array items ∧
      name = sheet.typeText true element ∧ List.Forall₂ (Java.Means element) items found

/-- The text initializes a field with the value. -/
structure Sheet.Whole (sheet : Sheet) (type : TypeRef) (value : Json) (text : String) : Prop where
  fits : Fits type value
  expressed : ∃ expression e, text = " = " ++ expression ∧ Expresses expression e ∧
    sheet.Means type value e

def Spared (type : TypeRef) (value : Json) : Prop :=
  (∀ part ∈ parts type value, ¬ Written (partType type) part) ∨
    ∀ part ∈ parts type value, Fits (partType type) part ∧ ¬ Vanishes (partType type) part

theorem assignment_inj {left right : String} (h : " = " ++ left = " = " ++ right) :
    left = right := by
  rw [← String.toList_inj, String.toList_append, String.toList_append] at h
  exact String.toList_inj.mp (List.append_cancel_left h)

theorem literal_whole_iff (hsingle : collection? type = none)
    (hvalue : ∀ n ∈ value.number?, n.WellFormed) :
    (∀ text ∈ (literalOf? type value).map (" = " ++ ·), sheet.Whole type value text) ↔
      (Written type value → Fits type value ∧ ¬ Vanishes type value) := by
  constructor
  · intro h hwritten
    obtain ⟨literal, hliteral⟩ := Option.isSome_iff_exists.mp
      ((literalOf?_isSome hvalue).mpr hwritten)
    obtain ⟨hfits, expression, e, htext, hexpresses, -⟩ := h _ (by rw [hliteral]; rfl)
    obtain rfl := assignment_inj htext
    refine ⟨hfits, fun hvanishes => ?_⟩
    obtain ⟨hopens, hreads⟩ := literalOf?_reads hvalue hliteral
    rw [valueOf?_of_vanishes hvalue hvanishes] at hreads
    have hread := hexpresses []
    rw [expression?_literal hopens hreads] at hread
    cases hread
  · intro h text htext
    obtain ⟨literal, hliteral, rfl⟩ := Option.map_eq_some_iff.mp htext
    obtain ⟨hfits, hvanish⟩ := h ((literalOf?_isSome hvalue).mp (by rw [hliteral]; rfl))
    obtain ⟨v, hv, hmeans⟩ := valueOf?_means hvalue hfits hsingle hvanish
    obtain ⟨hopens, hreads⟩ := literalOf?_reads hvalue hliteral
    refine ⟨hfits, literal, .literal v, rfl, fun following => ?_, hsingle, hmeans⟩
    rw [hv] at hreads
    exact expression?_literal hopens hreads

theorem isWord_typeText (htype : element.Basic) (hsingle : collection? element = none) :
    isWord (sheet.typeText true element) = true := by
  cases htype with
  | string => exact (by decide : isWord "String" = true)
  | scalar scalar primitive =>
    rw [Sheet.typeText, Bool.not_true, Bool.and_false]
    cases scalar <;> decide
  | list | set => cases hsingle

theorem literals_eq_nil (element : TypeRef) {items : List Json}
    (hvalue : ∀ item ∈ items, ∀ n ∈ item.number?, n.WellFormed) :
    items.filterMap (literalOf? element) = [] ↔ ∀ item ∈ items, ¬ Written element item := by
  rw [List.filterMap_eq_nil_iff]
  refine forall₂_congr fun item hitem => ?_
  rw [← literalOf?_isSome (hvalue item hitem), Bool.not_eq_true, Option.isSome_eq_false_iff,
    Option.isNone_iff_eq_none]

theorem forall₂_literals {items : List Json}
    (hvalue : ∀ item ∈ items, ∀ n ∈ item.number?, n.WellFormed)
    (hwritten : ∀ item ∈ items, Written element item) :
    List.Forall₂ (fun text item => Opens text ∧ ReadsAs text (valueOf? element item))
      (items.filterMap (literalOf? element)) items := by
  induction items with
  | nil => exact .nil
  | cons item items ih =>
    rw [List.forall_mem_cons] at hvalue hwritten
    obtain ⟨literal, hliteral⟩ := Option.isSome_iff_exists.mp
      ((literalOf?_isSome hvalue.1).mpr hwritten.1)
    rw [List.filterMap_cons, hliteral]
    exact .cons (literalOf?_reads hvalue.1 hliteral) (ih hvalue.2 hwritten.2)

theorem exists_values {items : List Json} (hsingle : collection? element = none)
    (hvalue : ∀ item ∈ items, ∀ n ∈ item.number?, n.WellFormed)
    (h : ∀ item ∈ items, Fits element item ∧ ¬ Vanishes element item) :
    ∃ values, List.Forall₂ (fun item v => valueOf? element item = some v ∧ Means element item v)
      items values := by
  induction items with
  | nil => exact ⟨[], .nil⟩
  | cons item items ih =>
    rw [List.forall_mem_cons] at hvalue h
    obtain ⟨v, hv⟩ := valueOf?_means hvalue.1 h.1.1 hsingle h.1.2
    obtain ⟨values, hvalues⟩ := ih hvalue.2 h.2
    exact ⟨v :: values, .cons hv hvalues⟩

theorem single_of_written (h : Written type value) : collection? type = none := by
  cases type with
  | list | set => exact h.elim
  | any | string | scalar | library | generated => rfl

theorem isWord_implementation {implementation : String}
    (h : collection? type = some (implementation, element)) : isWord implementation = true := by
  cases type with
  | list | set =>
    cases h
    decide
  | any | string | scalar | library | generated => cases h

theorem fits_collection {implementation : String}
    (h : collection? type = some (implementation, element)) :
    Fits type value ↔ ∃ items, value = .array items ∧ ∀ item ∈ items, Fits element item := by
  cases type with
  | list element | set element =>
    cases h
    constructor
    · intro hfits
      cases value with
      | array items => exact ⟨items, rfl, hfits⟩
      | null | bool | number | string | object => exact hfits.elim
    · rintro ⟨items, rfl, hall⟩
      exact hall
  | any | string | scalar | library | generated => cases h

theorem not_vanishes_of_mapM {items : List Json} {values : List Value}
    (hvalue : ∀ item ∈ items, ∀ n ∈ item.number?, n.WellFormed)
    (h : items.mapM (valueOf? element) = some values) : ∀ item ∈ items,
      ¬ Vanishes element item := by
  have hall := mapM_eq_some_iff.mp h
  clear h
  induction hall with
  | nil => exact fun item hitem => absurd hitem List.not_mem_nil
  | cons hfirst _ ih =>
    rw [List.forall_mem_cons] at hvalue ⊢
    refine ⟨fun hvanishes => ?_, ih hvalue.2⟩
    rw [valueOf?_of_vanishes hvalue.1 hvanishes] at hfirst
    cases hfirst

theorem collection_whole_iff {implementation : String} (htype : element.Basic)
    (hcollection : collection? type = some (implementation, element))
    (hvalue : ∀ item ∈ value.array?.getD [], ∀ n ∈ item.number?, n.WellFormed) :
    (∀ text ∈ sheet.collectionText? implementation element
        ((value.array?.getD []).filterMap (literalOf? element)), sheet.Whole type value text) ↔
      (∀ item ∈ value.array?.getD [], ¬ Written element item) ∨
        ∀ item ∈ value.array?.getD [], Fits element item ∧ ¬ Vanishes element item := by
  generalize hitems : value.array?.getD [] = items at hvalue ⊢
  have hliterals := literals_eq_nil element hvalue
  by_cases hnone : items.filterMap (literalOf? element) = []
  · rw [hnone]
    exact iff_of_true nofun (.inl (hliterals.mp hnone))
  · -- Something is written, so the elements are no collections, and the default is an array.
    have hwritten := mt hliterals.mpr hnone
    obtain ⟨item, hitem, hsome⟩ : ∃ item ∈ items, Written element item := by
      push Not at hwritten
      exact hwritten
    have hsingle := single_of_written hsome
    obtain rfl : value = .array items := by
      cases value with
      | array found => exact congrArg _ hitems
      | null | bool | number | string | object =>
        rw [← hitems] at hitem
        exact absurd hitem List.not_mem_nil
    have htext : sheet.collectionText? implementation element
        (items.filterMap (literalOf? element)) = some (" = " ++ newCollection implementation
          (sheet.typeText true element) (items.filterMap (literalOf? element))) :=
      if_neg (by simpa using hnone)
    have hread : (∀ item ∈ items, Fits element item) → ∀ following,
        expression? _ (inputs ((newCollection implementation (sheet.typeText true element)
          (items.filterMap (literalOf? element))).toList ++ ';' :: following)) = _ :=
      fun hall _ => expression?_collection (isWord_implementation hcollection)
        (isWord_typeText htype hsingle) (forall₂_literals hvalue fun item hitem =>
          written_of_fits (hall item hitem) hsingle) hnone
    simp only [or_iff_right hwritten, htext, Option.mem_some_iff, forall_eq']
    constructor
    · rintro ⟨hfits, expression, e, hexpression, hexpresses, -⟩
      obtain rfl := assignment_inj hexpression
      obtain ⟨found, hfound, hall⟩ := (fits_collection hcollection).mp hfits
      obtain rfl := Json.array.inj hfound
      have hnow := (hread hall []).symm.trans (hexpresses [])
      obtain ⟨values, hvalues, -⟩ := Option.map_eq_some_iff.mp hnow
      exact fun item hitem => ⟨hall item hitem, not_vanishes_of_mapM hvalue hvalues item hitem⟩
    · intro hall
      have hfits := fun item hitem => (hall item hitem).1
      obtain ⟨values, hvalues⟩ := exists_values hsingle hvalue hall
      refine ⟨(fits_collection hcollection).mpr ⟨items, rfl, hfits⟩, _,
        .collection implementation (sheet.typeText true element) values, rfl, fun following => ?_,
        element, items, hcollection, rfl, rfl, hvalues.imp fun _ _ h => h.2⟩
      rw [hread hfits, mapM_eq_some_iff.mpr (hvalues.imp fun _ _ h => h.1)]
      rfl

theorem wellFormed_item {items : List Json} (h : ∀ n ∈ (Json.array items).numbers, n.WellFormed) :
    ∀ item ∈ items, ∀ n ∈ item.number?, n.WellFormed :=
  fun item hitem n hn => h n (List.mem_filterMap.mpr ⟨item, hitem, hn⟩)

/-- A default is written if any of it is, and otherwise it is ignored. What is written is the whole
default, as an expression that denotes it, if and only if all of it fits and none of it is lost. -/
theorem default_whole_iff (htype : type.Basic) (hvalue : ∀ n ∈ value.numbers, n.WellFormed)
    (hnull : value.isNull = false) :
    ∃ stated, Yields (defaultInitializer? sheet type value) (· = stated) ∧
      Yields (initializer sheet type (some value)) (· = stated.getD (sheet.emptyText type)) ∧
      (stated.isSome ↔ ∃ part ∈ parts type value, Written (partType type) part) ∧
      ((∀ text ∈ stated, sheet.Whole type value text) ↔ Spared type value) := by
  cases hcollection : collection? type with
  | none =>
    have hnumber : ∀ n ∈ value.number?, n.WellFormed := by
      cases value with
      | number n => exact fun _ hn => hvalue _ (Option.mem_toList.mpr hn)
      | null | bool | string | array | object => nofun
    have hstated := @defaultInitializer?_yields_literal sheet type value _ hnull hcollection
      (literal?_basic htype value)
    have hparts : parts type value = [value] := by simp [parts, hcollection]
    have htypes : partType type = type := by simp [partType, hcollection]
    refine ⟨_, hstated, initializer_yields hstated, ?_, ?_⟩
    · rw [hparts, htypes, Option.isSome_map, literalOf?_isSome hnumber]
      simp
    · rw [literal_whole_iff hcollection hnumber, Spared, hparts, htypes, List.forall_mem_singleton,
        List.forall_mem_singleton, imp_iff_not_or]
  | some found =>
    obtain ⟨implementation, element⟩ := found
    have helement : element.Basic := by
      cases htype with
      | list h | set h =>
        cases hcollection
        exact h
      | string | scalar => cases hcollection
    have hitems : ∀ item ∈ value.array?.getD [], ∀ n ∈ item.number?, n.WellFormed := by
      cases value with
      | array items => exact wellFormed_item hvalue
      | null | bool | number | string | object => nofun
    have hstated := @defaultInitializer?_yields_collection sheet type element value implementation _
      hnull hcollection (literal?_basic helement)
    have hparts : parts type value = value.array?.getD [] := by simp [parts, hcollection]
    have htypes : partType type = element := by simp [partType, hcollection]
    refine ⟨_, hstated, initializer_yields hstated, ?_, ?_⟩
    · have hnone := not_congr (literals_eq_nil element hitems)
      push Not at hnone
      rw [hparts, htypes, ← hnone, Sheet.collectionText?]
      split <;> simp_all
    · rw [collection_whole_iff helement hcollection hitems, Spared, hparts, htypes]

private def plainSheet : Sheet := ⟨{}, [], {}, ""⟩

private def integers : TypeRef := .list (.scalar .integer false)

private def someIntegers : Json := .array [.number (.integer 1), .number (.integer 2)]

/-- A list of integers is written with all of them. -/
theorem default_whole_integers : ∃ text,
    Yields (initializer plainSheet integers (some someIntegers)) (· = text) ∧
      plainSheet.Whole integers someIntegers text := by
  have hitems : ∀ item ∈ [Json.number (.integer 1), .number (.integer 2)],
      item = .number (.integer 1) ∨ item = .number (.integer 2) := by simp
  have hnumbers : ∀ n ∈ someIntegers.numbers, n.WellFormed := by
    intro n hn
    obtain ⟨item, hitem, hnumber⟩ := List.mem_filterMap.mp hn
    obtain rfl | rfl := hitems item hitem
    all_goals
      cases hnumber
      exact ⟨by decide, by decide⟩
  have hfits : ∀ part ∈ parts integers someIntegers,
      Fits (partType integers) part ∧ ¬ Vanishes (partType integers) part := by
    intro part hpart
    obtain rfl | rfl := hitems part hpart
    all_goals exact ⟨⟨by decide, by decide⟩, id⟩
  obtain ⟨stated, -, hinitializer, hstated, hwhole⟩ :=
    @default_whole_iff plainSheet integers someIntegers
      (.list (.scalar .integer false)) hnumbers rfl
  obtain ⟨text, rfl⟩ := Option.isSome_iff_exists.mp
    (hstated.mpr ⟨_, List.mem_cons_self, (hfits _ List.mem_cons_self).1⟩)
  exact ⟨text, hinitializer, hwhole.mpr (.inr hfits) text rfl⟩

/-- An item that does not fit is left out of a list, a number is written for a field in single
precision although it is too large, and another one although it vanishes. -/
theorem default_in_part :
    (∃ text, ((defaultInitializer? plainSheet integers
        (.array [.number (.integer 1), .string "x"])).run []).1 = some text ∧
      ¬ plainSheet.Whole integers (.array [.number (.integer 1), .string "x"]) text) ∧
    (∃ text, ((defaultInitializer? plainSheet (.scalar .float false)
        (.number (.float (.finite false (2 ^ 52) 971)))).run []).1 = some text ∧
      ¬ plainSheet.Whole (.scalar .float false)
        (.number (.float (.finite false (2 ^ 52) 971))) text) ∧
    ∃ text, ((defaultInitializer? plainSheet (.scalar .float false)
        (.number (.float (.finite false 1 (-1074))))).run []).1 = some text ∧
      ¬ plainSheet.Whole (.scalar .float false)
        (.number (.float (.finite false 1 (-1074)))) text := by
  refine ⟨⟨_, rfl, fun h => ?_⟩, ⟨_, rfl, fun h => ?_⟩, ⟨_, rfl, fun h => ?_⟩⟩
  · exact h.fits (.string "x") (by simp)
  · have hfits : |(JsonNumber.float (.finite false (2 ^ 52) 971)).rational| ≤
        Format.single.greatest := h.fits
    rw [JsonNumber.rational, Binary64.abs_value, Nat.cast_pow, Nat.cast_ofNat] at hfits
    have hlarge : Format.single.greatest < 2 ^ 52 * 2 ^ (971 : Int) := by
      calc Format.single.greatest = (2 ^ 24 - 1) * 2 ^ (104 : Int) := rfl
        _ < 2 ^ 52 * 2 ^ (104 : Int) :=
            mul_lt_mul_of_pos_right (by norm_num) (Binary64.two_pow_pos 104)
        _ ≤ 2 ^ 52 * 2 ^ (971 : Int) :=
            mul_le_mul_of_nonneg_left (Format.two_pow_le (by decide)) (by norm_num)
    exact absurd hfits (not_le.mpr hlarge)
  · have hnumber : ∀ n ∈ (Json.number (.float (.finite false 1 (-1074)))).number?,
        n.WellFormed := by
      rintro n ⟨⟩
      exact ⟨rfl, by decide, by decide, by decide, by decide⟩
    have hvanishes : Vanishes (.scalar .float false)
        (.number (.float (.finite false 1 (-1074)))) := by
      refine ⟨fun hzero => ?_, by decide +kernel⟩
      exact absurd (Binary64.value_eq_zero.mp hzero) (by decide)
    have hwhole := (@literal_whole_iff plainSheet (.scalar .float false) _ rfl hnumber).mp
      fun text htext => Option.some.inj htext ▸ h
    exact (hwhole trivial).2 hvanishes

end Java

end SchemaBeans
