import SchemaBeans.Names
import SchemaBeans.Proofs.Text.Case

/-! # Names as identifiers

Whatever a raw name holds, the names made from it are identifiers of Java. Reserved words are
written in small letters, except the underscore; so the name of a class, which starts with a
capital, can only be that one, and it is if nothing else is left of the raw name. Fields get an
underscore before a reserved word, and constants are not named so at all. -/
namespace SchemaBeans.Names

open Text (isIdentifierChar)

/-- An identifier of Latin letters, digits and two signs, no digit first. -/
structure Identifier (name : String) : Prop where
  nonempty : name ≠ ""
  chars : ∀ c ∈ name.toList, c.isAlphanum = true ∨ c = '_' ∨ c = '$'
  start : ∀ c ∈ name.toList.head?, c.isDigit = false

variable {name : String} {first c : Char} {rest text delimiters : List Char}

/-- The first character and the others make an identifier. -/
def Spelled (first : Char) (rest : List Char) : Prop :=
  first.isDigit = false ∧ ∀ c ∈ first :: rest, isIdentifierChar c = true

theorem Spelled.identifier (h : Spelled first rest) (hname : name.toList = first :: rest) :
    Identifier name where
  nonempty := by
    rintro rfl
    cases hname
  chars c hc := Text.isIdentifierChar_iff.mp (h.2 c (hname ▸ hc))
  start c hc := by
    rw [hname, List.head?_cons, Option.mem_some] at hc
    exact hc ▸ h.1

theorem spelled_underscore (h : ∀ c ∈ text, isIdentifierChar c = true) : Spelled '_' text := by
  refine ⟨by decide, fun c hc => ?_⟩
  rcases List.mem_cons.mp hc with rfl | hc
  · decide
  · exact h c hc

/-- Another first character of the same kind makes an identifier too. -/
theorem Spelled.change {other : Char} (h : Spelled first rest)
    (hother : isIdentifierChar other = true) (hdigit : other.isDigit = first.isDigit) :
    Spelled other rest := by
  refine ⟨hdigit ▸ h.1, fun c hc => ?_⟩
  rcases List.mem_cons.mp hc with rfl | hc
  · exact hother
  · exact h.2 c (List.mem_cons_of_mem _ hc)

section Characters

variable (h : isIdentifierChar c = true)

include h

theorem isIdentifierChar_toUpper : isIdentifierChar c.toUpper = true :=
  Text.of_forall_fin (Text.toNat_lt_of_isIdentifierChar h)
    (P := fun c => isIdentifierChar c = true → isIdentifierChar c.toUpper = true) (by decide) h

theorem isIdentifierChar_toLower : isIdentifierChar c.toLower = true :=
  Text.of_forall_fin (Text.toNat_lt_of_isIdentifierChar h)
    (P := fun c => isIdentifierChar c = true → isIdentifierChar c.toLower = true) (by decide) h

theorem isDigit_toUpper : c.toUpper.isDigit = c.isDigit :=
  Text.of_forall_fin (Text.toNat_lt_of_isIdentifierChar h)
    (P := fun c => c.toUpper.isDigit = c.isDigit) (by decide)

theorem isDigit_toLower : c.toLower.isDigit = c.isDigit :=
  Text.of_forall_fin (Text.toNat_lt_of_isIdentifierChar h)
    (P := fun c => c.toLower.isDigit = c.isDigit) (by decide)

theorem toUpper_eq_underscore : c.toUpper = '_' ↔ c = '_' :=
  Text.of_forall_fin (Text.toNat_lt_of_isIdentifierChar h)
    (P := fun c => c.toUpper = '_' ↔ c = '_') (by decide)

end Characters

theorem Spelled.isIdentifierChar (h : Spelled first rest) : isIdentifierChar first = true :=
  h.2 first List.mem_cons_self

theorem Spelled.toUpper (h : Spelled first rest) : Spelled first.toUpper rest :=
  h.change (isIdentifierChar_toUpper h.isIdentifierChar) (isDigit_toUpper h.isIdentifierChar)

theorem Spelled.toLower (h : Spelled first rest) : Spelled first.toLower rest :=
  h.change (isIdentifierChar_toLower h.isIdentifierChar) (isDigit_toLower h.isIdentifierChar)

theorem isReserved_iff (hname : name.toList = first :: rest) (hsmall : first.isLower = false) :
    isReserved name = true ↔ first = '_' ∧ rest = [] := by
  have hall : ∀ word ∈ reservedWords, word = "_" ∨ word.toList.head?.all Char.isLower = true := by
    decide +kernel
  have hone : "_".toList = ['_'] := rfl
  constructor
  · intro h
    rcases hall name (List.contains_iff_mem.mp h) with rfl | hhead
    · rw [hone] at hname
      cases hname
      exact ⟨rfl, rfl⟩
    · rw [hname, List.head?_cons, Option.all_some, hsmall] at hhead
      cases hhead
  · rintro ⟨rfl, rfl⟩
    obtain rfl : name = "_" := String.toList_injective (hname.trans hone.symm)
    decide

theorem mem_clean (h : c ∈ clean text) : isIdentifierChar c = true := by
  obtain ⟨other, -, rfl⟩ := List.mem_map.mp h
  split
  · assumption
  · decide

theorem spelled_guardStart (h : ∀ c ∈ text, isIdentifierChar c = true) : ∃ first rest,
    guardStart text = first :: rest ∧ Spelled first rest := by
  cases text with
  | nil => exact ⟨'_', [], rfl, spelled_underscore (List.forall_mem_nil _)⟩
  | cons c rest =>
    rw [guardStart]
    split
    · exact ⟨'_', c :: rest, rfl, spelled_underscore h⟩
    · rename_i hdigit
      exact ⟨c, rest, rfl, Bool.not_eq_true _ ▸ hdigit, h⟩

theorem identifier_spelled (delimiters : List Char) (raw : String) : ∃ first rest,
    (identifier delimiters raw).toList = first :: rest ∧ Spelled first rest := by
  unfold identifier
  rw [String.toList_ofList]
  exact spelled_guardStart fun c => mem_clean

theorem recase_cons (case : Char → List Char) (c : Char) (rest : List Char) :
    recase case (c :: rest) = case c ++ rest := rfl

theorem capitalize_cons (hname : name.toList = first :: rest)
    (hfirst : isIdentifierChar first = true) :
    (capitalize name).toList = first.toUpper :: rest := by
  rw [capitalize, String.toList_ofList, hname, recase_cons,
    Text.upper_eq_toUpper (Text.toNat_lt_of_isIdentifierChar hfirst), List.singleton_append]

theorem decapitalize_cons (hname : name.toList = first :: rest)
    (hfirst : isIdentifierChar first = true) :
    (decapitalize name).toList = first.toLower :: rest := by
  rw [decapitalize, String.toList_ofList, hname, recase_cons,
    Text.lower_eq_toLower (Text.toNat_lt_of_isIdentifierChar hfirst), List.singleton_append]

theorem typeName_spelled (settings : Settings) (hbefore : settings.classNamePrefix = "")
    (hafter : settings.classNameSuffix = "") (raw : String) : ∃ first rest,
      (identifier settings.propertyWordDelimiters raw).toList = first :: rest ∧
      (typeName settings raw).toList = first.toUpper :: rest ∧ Spelled first rest := by
  obtain ⟨first, rest, hname, hspelled⟩ :=
    identifier_spelled settings.propertyWordDelimiters raw
  refine ⟨first, rest, hname, ?_, hspelled⟩
  rw [typeName, hbefore, hafter, String.empty_append, String.append_empty,
    capitalize_cons hname hspelled.isIdentifierChar]

theorem guardStart_eq_underscore : guardStart text = ['_'] ↔ text = [] ∨ text = ['_'] := by
  cases text with
  | nil => simp [guardStart]
  | cons c rest =>
    rw [guardStart]
    split
    · rename_i hdigit
      have hc : c ≠ '_' := by
        rintro rfl
        cases hdigit
      simp [hc]
    · simp

theorem clean_eq_underscore : clean text = ['_'] ↔
    ∃ c, text = [c] ∧ c.isAlphanum = false ∧ c ≠ '$' := by
  have hone : ∀ c : Char, (if isIdentifierChar c = true then c else '_') = '_' ↔
      c.isAlphanum = false ∧ c ≠ '$' := by
    intro c
    by_cases hunderscore : c = '_'
    · subst hunderscore
      decide
    · simp [isIdentifierChar, hunderscore]
  cases text with
  | nil => simp [clean]
  | cons c rest =>
    cases rest with
    | nil => simp [clean, hone c]
    | cons _ _ => simp [clean]

theorem identifier_eq_underscore {raw : String} :
    (identifier delimiters raw).toList = ['_'] ↔ joinWords delimiters false raw.toList = [] ∨
      ∃ c, joinWords delimiters false raw.toList = [c] ∧ c.isAlphanum = false ∧ c ≠ '$' := by
  rw [identifier, String.toList_ofList, guardStart_eq_underscore, clean_eq_underscore]
  simp [clean]

/-- Without a prefix and a suffix the name of a class is an identifier. It is a reserved word
exactly if the raw name without its delimiters is empty, or one character that is no letter, no
digit and no dollar sign. -/
theorem typeName_identifier {settings : Settings} (hbefore : settings.classNamePrefix = "")
    (hafter : settings.classNameSuffix = "") (raw : String) :
    Identifier (typeName settings raw) ∧
    (isReserved (typeName settings raw) = true ↔
      joinWords settings.propertyWordDelimiters false raw.toList = [] ∨
      ∃ c, joinWords settings.propertyWordDelimiters false raw.toList = [c] ∧
        c.isAlphanum = false ∧ c ≠ '$') := by
  obtain ⟨first, rest, hname, htype, hspelled⟩ := typeName_spelled settings hbefore hafter raw
  have hfirst := hspelled.isIdentifierChar
  refine ⟨hspelled.toUpper.identifier htype, ?_⟩
  rw [isReserved_iff htype (Char.isLower_toUpper_eq_false first), toUpper_eq_underscore hfirst,
    ← identifier_eq_underscore, hname, List.cons.injEq]

/-- A word behind a delimiter, and a letter of another script that has a capital. -/
theorem typeName_identifier_words : Identifier
    (typeName { propertyWordDelimiters := ['-'] } "9-é") ∧
    isReserved (typeName { propertyWordDelimiters := ['-'] } "9-é") = false ∧
    isReserved (typeName { propertyWordDelimiters := ['-'] } "-é") = true := by
  obtain ⟨hlegal, hreserved⟩ :=
    @typeName_identifier { propertyWordDelimiters := ['-'] } rfl rfl "9-é"
  have hword : joinWords ['-'] false "9-é".toList = ['9', 'É'] := by decide +kernel
  refine ⟨hlegal, ?_, ?_⟩
  · rw [← Bool.not_eq_true, hreserved, hword]
    simp
  · refine (@typeName_identifier { propertyWordDelimiters := ['-'] } rfl rfl "-é").2.mpr ?_
    exact .inr ⟨'É', by decide +kernel, by decide, by decide⟩

/-- A class whose raw name is empty is called by a reserved word. -/
theorem typeName_of_empty : ¬ ∀ (settings : Settings) (raw : String),
    settings.classNamePrefix = "" → settings.classNameSuffix = "" →
      Identifier (typeName settings raw) ∧ isReserved (typeName settings raw) = false := by
  intro h
  have hempty : isReserved (typeName {} "") = true := by decide +kernel
  have hfree := (h {} "" rfl rfl).2
  rw [hempty] at hfree
  cases hfree

theorem propertyName_legal (settings : Settings) (raw : String) :
    Identifier (propertyName settings raw) ∧
    (∀ c ∈ (propertyName settings raw).toList.head?, c.isUpper = false) ∧
    isReserved (propertyName settings raw) = false := by
  obtain ⟨first, rest, hname, hspelled⟩ :=
    identifier_spelled settings.propertyWordDelimiters raw
  have hfirst := hspelled.isIdentifierChar
  have hsmall := hspelled.toLower
  have hfield := decapitalize_cons hname hfirst
  unfold propertyName
  dsimp only
  split
  · have hbefore : ("_" ++ decapitalize (identifier settings.propertyWordDelimiters raw)).toList =
        '_' :: first.toLower :: rest := by
      rw [String.toList_append, hfield]
      rfl
    refine ⟨(spelled_underscore hsmall.2).identifier hbefore, fun c hc => ?_, ?_⟩
    · rw [hbefore, List.head?_cons, Option.mem_some] at hc
      exact hc ▸ by decide
    · rw [← Bool.not_eq_true, isReserved_iff hbefore (by decide)]
      simp
  · rename_i hfree
    refine ⟨hsmall.identifier hfield, fun c hc => ?_, Bool.not_eq_true _ ▸ hfree⟩
    rw [hfield, List.head?_cons, Option.mem_some] at hc
    exact hc ▸ Char.isUpper_toLower_eq_false first

def constantOf (shouted : List Char) : String :=
  match trimUnderscores (clean shouted) with
  | [] => "__EMPTY__"
  | c :: rest => String.ofList (if c.isDigit then '_' :: c :: rest else c :: rest)

theorem constantName_eq (literal : String) :
    constantName literal = constantOf (Text.shouted literal.toList) := by
  unfold constantName constantOf
  generalize trimUnderscores _ = trimmed
  cases trimmed <;> rfl

theorem isPrefix_trimUnderscores (text : List Char) :
    trimUnderscores text <+: text.dropWhile (· = '_') :=
  List.rdropWhile_prefix _ _

theorem mem_trimUnderscores (h : c ∈ trimUnderscores text) : c ∈ text :=
  (List.dropWhile_sublist _).subset ((isPrefix_trimUnderscores text).subset h)

theorem trimUnderscores_first (h : trimUnderscores text = first :: rest) : first ≠ '_' := by
  obtain ⟨behind, hbehind⟩ := isPrefix_trimUnderscores text
  have hhead := List.head?_dropWhile_not (fun c => decide (c = '_')) text
  rw [← hbehind, h] at hhead
  simpa using hhead

theorem not_isLower_of_mem_clean (hsmall : ∀ c ∈ text, c.isLower = false) (h : c ∈ clean text) :
    c.isLower = false := by
  obtain ⟨other, hother, rfl⟩ := List.mem_map.mp h
  split
  · exact hsmall other hother
  · decide

theorem constantOf_legal {shouted : List Char} (hsmall : ∀ c ∈ shouted, c.isLower = false) :
    Identifier (constantOf shouted) ∧ isReserved (constantOf shouted) = false := by
  unfold constantOf
  split
  · have htext : "__EMPTY__".toList = '_' :: "_EMPTY__".toList := rfl
    exact ⟨(spelled_underscore (List.all_eq_true.mp (by decide))).identifier htext, by decide⟩
  · rename_i first rest htrim
    have hmem : ∀ c ∈ first :: rest, c ∈ clean shouted :=
      fun c hc => mem_trimUnderscores (htrim ▸ hc)
    have hchars : ∀ c ∈ first :: rest, isIdentifierChar c = true :=
      fun c hc => mem_clean (hmem c hc)
    split
    · have htext : (String.ofList ('_' :: first :: rest)).toList = '_' :: first :: rest :=
        String.toList_ofList
      refine ⟨(spelled_underscore hchars).identifier htext, ?_⟩
      rw [← Bool.not_eq_true, isReserved_iff htext (by decide)]
      simp
    · rename_i hdigit
      have htext : (String.ofList (first :: rest)).toList = first :: rest := String.toList_ofList
      have hspelled : Spelled first rest := ⟨Bool.not_eq_true _ ▸ hdigit, hchars⟩
      have hcapital := not_isLower_of_mem_clean hsmall (hmem first List.mem_cons_self)
      refine ⟨hspelled.identifier htext, ?_⟩
      rw [← Bool.not_eq_true, isReserved_iff htext hcapital]
      exact fun h => trimUnderscores_first htrim h.1

/-- The name of a field is a legal identifier that starts with no capital. The name of a constant is
a legal identifier too, which rests on nothing but the absence of small letters in capitals. -/
theorem member_names_legal (settings : Settings) (raw : String) :
    (Identifier (propertyName settings raw) ∧
      (∀ c ∈ (propertyName settings raw).toList.head?, c.isUpper = false) ∧
      isReserved (propertyName settings raw) = false) ∧
    (∀ shouted : List Char, (∀ c ∈ shouted, c.isLower = false) →
      Identifier (constantOf shouted) ∧ isReserved (constantOf shouted) = false) ∧
    ∀ literal : String, constantName literal = constantOf (Text.shouted literal.toList) ∧
      Identifier (constantName literal) ∧ isReserved (constantName literal) = false := by
  refine ⟨propertyName_legal settings raw, fun shouted => constantOf_legal, fun literal => ?_⟩
  rw [constantName_eq]
  exact ⟨rfl, constantOf_legal fun c => Text.not_isLower_of_mem_shouted⟩

/-- A field that is a reserved word only without its delimiter, and a constant that starts with a
digit only without the underscores before it. -/
theorem member_names_legal_words :
    propertyName { propertyWordDelimiters := ['-'] } "-class" = "_class" ∧
    isReserved (propertyName { propertyWordDelimiters := ['-'] } "-class") = false ∧
    (∀ c ∈ "__9 É".toList, c.isLower = false) ∧ constantOf "__9 É".toList = "_9" ∧
    isReserved (constantOf "__9 É".toList) = false := by
  obtain ⟨⟨-, -, hfield⟩, hconstant, -⟩ :=
    member_names_legal { propertyWordDelimiters := ['-'] } "-class"
  have hsmall : ∀ c ∈ "__9 É".toList, c.isLower = false :=
    List.all_iff_forall_prop.mp (by decide)
  exact ⟨by decide +kernel, hfield, hsmall, by decide +kernel, (hconstant _ hsmall).2⟩

end SchemaBeans.Names
