import SchemaBeans.Java.Literal
import SchemaBeans.Proofs.Java.Escapes
import SchemaBeans.Proofs.Json.Decimals

/-! # Literals

A literal is read off the translated source: text in quotes, a number, perhaps behind a minus, or
one of two words. A number without a suffix is an int or a double, and it has to be in range. One
with a suffix for floating point is rounded, and it may neither go beyond the format nor vanish.
What is written for a JSON value is read as the value, and the source behind it is left as it is. -/
namespace SchemaBeans.Java

open Binary64 (Decimal Numeral digitsValue)

/-- The value of a literal. A number in floating point has a sign and a size. -/
inductive Value where
  | string (text : List Input)
  | int (n : Int)
  | long (n : Int)
  | float (negative : Bool) (size : ℚ)
  | double (negative : Bool) (size : ℚ)
  | boolean (b : Bool)
  deriving DecidableEq

/-- The characters at the beginning that satisfy a test. -/
def span (test : Char → Bool) : List Input → List Char × List Input
  | .char c :: rest =>
    if test c then (c :: (span test rest).1, (span test rest).2) else ([], .char c :: rest)
  | rest => ([], rest)

/-- The character that an escape in a string stands for; octal escapes are left out. -/
def escaped? : Char → Option Char
  | 'b' => some '\x08'
  | 't' => some '\t'
  | 'n' => some '\n'
  | 'f' => some '\x0c'
  | 'r' => some '\r'
  | 's' => some ' '
  | '"' => some '"'
  | '\'' => some '\''
  | '\\' => some '\\'
  | _ => none

def stringBody? : List Input → Option (List Input × List Input)
  | [] => none
  | first :: rest =>
    if first = .char '"' then some ([], rest)
    else if first = .char '\\' then
      match rest with
      | .char mark :: more =>
        (escaped? mark).bind fun c => (stringBody? more).map fun (body, after) =>
          (.char c :: body, after)
      | _ => none
    else if first = .char '\n' ∨ first = .char '\r' ∨ first = .malformed then none
    else (stringBody? rest).map fun (body, after) => (first :: body, after)

/-- Three quotes open a text block, which is no literal here. -/
def string? (rest : List Input) : Option (List Input × List Input) :=
  if rest.take 2 = [.char '"', .char '"'] then none else stringBody? rest

/-- A number up to its suffix. -/
structure Figures where
  whole : List Char
  fraction : Option (List Char)
  exponent : Option Int

def Figures.decimal (f : Figures) : Decimal :=
  ⟨digitsValue (f.whole ++ f.fraction.getD []), f.exponent.getD 0 - (f.fraction.getD []).length⟩

/-- A minus and what follows it, or a plus or nothing. -/
def signed : List Input → Bool × List Input
  | .char '-' :: rest => (true, rest)
  | .char '+' :: rest => (false, rest)
  | rest => (false, rest)

def exponent? : List Input → Option (Option Int × List Input)
  | .char mark :: rest =>
    if mark = 'e' ∨ mark = 'E' then
      let (negative, unsigned) := signed rest
      let (digits, after) := span Char.isDigit unsigned
      let size : Int := digitsValue digits
      if digits.isEmpty then none else some (some (if negative then -size else size), after)
    else some (none, .char mark :: rest)
  | rest => some (none, rest)

def fraction? : List Input → Option (List Char) × List Input
  | .char '.' :: rest => (some (span Char.isDigit rest).1, (span Char.isDigit rest).2)
  | rest => (none, rest)

def figures? (source : List Input) : Option (Figures × List Input) :=
  let (whole, behind) := span Char.isDigit source
  let (fraction, rest) := fraction? behind
  if whole.isEmpty then none
  else (exponent? rest).map fun (exponent, after) => (⟨whole, fraction, exponent⟩, after)

/-- A decimal in floating point. Neither may a number vanish nor go beyond the format. -/
def floating? (f : Format) (size : ℚ) : Option ℚ :=
  if f.round size = 0 ∧ size ≠ 0 ∨ f.greatest < f.round size then none else some (f.round size)

def integer? (most : Int) (negative : Bool) (f : Figures) : Option Int :=
  let size : Int := digitsValue f.whole
  let n := if negative then -size else size
  if f.fraction.isSome ∨ f.exponent.isSome ∨ f.whole.head? = some '0' ∧ f.whole.length ≠ 1 then none
  else if -most - 1 ≤ n ∧ n ≤ most then some n else none

/-- The value of a number by its suffix. -/
def suffixed? (negative : Bool) (f : Figures) (rest : List Input) : Option (Value × List Input) :=
  let float := floating? .single f.decimal.value
  let double := floating? .double f.decimal.value
  match rest with
  | .char suffix :: after =>
    if suffix = 'F' ∨ suffix = 'f' then float.map fun size => (.float negative size, after)
    else if suffix = 'D' ∨ suffix = 'd' then double.map fun size => (.double negative size, after)
    else if suffix = 'L' ∨ suffix = 'l' then
      (integer? JsonNumber.signedMax negative f).map fun n => (.long n, after)
    else plain double
  | _ => plain double
where
  plain (double : Option ℚ) : Option (Value × List Input) :=
    if f.fraction.isSome ∨ f.exponent.isSome then double.map fun size =>
      (.double negative size, rest)
    else (integer? 2147483647 negative f).map fun n => (.int n, rest)

def number? (negative : Bool) (source : List Input) : Option (Value × List Input) :=
  (figures? source).bind fun (f, rest) => suffixed? negative f rest

def word? (source : List Input) : Option (Value × List Input) :=
  let (word, after) := span Text.isIdentifierChar source
  if word = "true".toList then some (.boolean true, after)
  else if word = "false".toList then some (.boolean false, after)
  else none

/-- The literal at the beginning of the source, and what follows it. -/
def readLiteral? (source : List Input) : Option (Value × List Input) :=
  match source with
  | .char '"' :: rest => (string? rest).map fun (text, after) => (.string text, after)
  | .char '-' :: rest => number? true rest
  | _ => (word? source).or (number? false source)

variable {text front : List Char} {rest : List Input} {test : Char → Bool} {body : List Char}
  {decimal : Decimal}

/-- The source does not begin with a character that the test takes. -/
def Stops (test : Char → Bool) (rest : List Input) : Prop :=
  ∀ c, rest.head? = some (.char c) → test c = false

theorem Stops.mono {other : Char → Bool} (h : Stops other rest)
    (htest : ∀ c, test c = true → other c = true) : Stops test rest := fun c hc => by
  rw [← Bool.not_eq_true]
  exact fun hnot => Bool.noConfusion ((htest c hnot).symm.trans (h c hc))

theorem span_append (hfront : ∀ c ∈ front, test c = true) (hrest : Stops test rest) :
    span test (front.map .char ++ rest) = (front, rest) := by
  induction front with
  | nil =>
    rw [List.map_nil, List.nil_append]
    unfold span
    split
    · rw [if_neg (by simpa using hrest _ rfl)]
    · rfl
  | cons c front ih =>
    have hc := hfront c List.mem_cons_self
    rw [List.map_cons, List.cons_append, span, if_pos hc,
      ih fun c hc => hfront c (List.mem_cons_of_mem _ hc)]

theorem stops_mark {mark : Char} (h : test mark = false ∧ mark ≠ '\\') (following : List Char) :
    Stops test (inputs (mark :: following)) := by
  intro c hc
  rw [inputs_cons h.2] at hc
  obtain rfl : mark = c := by simpa using hc
  exact h.1

theorem span_eq (test : Char → Bool) (source : List Input) :
    source = (span test source).1.map .char ++ (span test source).2 ∧
      ∀ c ∈ (span test source).1, test c = true := by
  fun_induction span test source with
  | case1 c rest hc ih => exact ⟨congrArg _ ih.1, List.forall_mem_cons.mpr ⟨hc, ih.2⟩⟩
  | case2 c rest hc => exact ⟨rfl, nofun⟩
  | case3 rest => exact ⟨rfl, nofun⟩

theorem escapedChar_cases (c : Char) :
    (∃ mark, escapedChar c = ['\\', mark] ∧ escaped? mark = some c) ∨
      escapedChar c = [c] ∧ c ≠ '\\' ∧ c ≠ '"' ∧ c ≠ '\n' ∧ c ≠ '\r' := by
  unfold escapedChar
  split_ifs with h1 h2 h3 h4 h5
  · exact .inl ⟨_, rfl, by rw [h1]; rfl⟩
  · exact .inl ⟨_, rfl, by rw [h2]; rfl⟩
  · exact .inl ⟨_, rfl, by rw [h3]; rfl⟩
  · exact .inl ⟨_, rfl, by rw [h4]; rfl⟩
  · exact .inl ⟨_, rfl, by rw [h5]; rfl⟩
  · exact .inr ⟨rfl, h1, h2, h3, h4⟩

theorem inputs_escaped (text following : List Char) :
    inputs (text.flatMap escapedChar ++ following) =
      (text.flatMap escapedChar).map .char ++ inputs following := by
  induction text with
  | nil => rfl
  | cons c text ih =>
    rw [List.flatMap_cons, List.append_assoc, List.map_append, List.append_assoc, ← ih]
    rcases escapedChar_cases c with ⟨mark, hescaped, hmark⟩ | ⟨hescaped, hplain, -⟩
    · have hnot : mark ≠ 'u' := by
        rintro rfl
        cases hmark
      rw [hescaped]
      simp [inputs, inputsFrom, hnot]
    · rw [hescaped]
      exact inputs_cons hplain _

theorem stringBody?_quote (rest : List Input) :
    stringBody? (.char '"' :: rest) = some ([], rest) := by
  rw [stringBody?.eq_def]
  rfl

theorem stringBody?_escape (mark : Char) (rest : List Input) :
    stringBody? (.char '\\' :: .char mark :: rest) = (escaped? mark).bind fun c =>
      (stringBody? rest).map fun (body, after) => (.char c :: body, after) := by
  rw [stringBody?.eq_def]
  rfl

theorem stringBody?_plain {c : Char} (hc : c ≠ '\\' ∧ c ≠ '"' ∧ c ≠ '\n' ∧ c ≠ '\r')
    (rest : List Input) : stringBody? (.char c :: rest) =
      (stringBody? rest).map fun (body, after) => (.char c :: body, after) := by
  rw [stringBody?.eq_def]
  simp [hc]

theorem stringBody?_escaped (text : List Char) (rest : List Input) :
    stringBody? ((text.flatMap escapedChar).map .char ++ .char '"' :: rest) =
      some (text.map .char, rest) := by
  induction text with
  | nil => exact stringBody?_quote rest
  | cons c text ih =>
    rw [List.flatMap_cons, List.map_append, List.append_assoc, List.map_cons]
    rcases escapedChar_cases c with ⟨mark, hescaped, hmark⟩ | ⟨hescaped, hplain⟩
    · simp [hescaped, stringBody?_escape, hmark, ih]
    · simp [hescaped, stringBody?_plain hplain, ih]

theorem take_escaped (text : List Char) (rest : List Input) :
    ((text.flatMap escapedChar).map Input.char ++ .char '"' :: rest).take 2 =
      [.char '"', .char '"'] ↔ text = [] ∧ rest.head? = some (.char '"') := by
  cases text with
  | nil => cases rest <;> simp
  | cons c text =>
    rcases escapedChar_cases c with ⟨mark, hescaped, -⟩ | ⟨hescaped, -, hquote, -⟩
    · simp [hescaped]
    · simp [hescaped, hquote]

theorem string?_escaped (text : List Char) (rest : List Input) :
    string? ((text.flatMap escapedChar).map .char ++ .char '"' :: rest) =
      if text = [] ∧ rest.head? = some (.char '"') then none else some (text.map .char, rest) := by
  rw [string?, stringBody?_escaped]
  simp only [take_escaped]

theorem inputs_stringLiteral (text : String) (following : List Char) :
    inputs ((stringLiteral text).toList ++ following) =
      .char '"' ::
      ((text.toList.flatMap escapedChar).map .char ++ .char '"' :: inputs following) := by
  have hchars : (stringLiteral text).toList ++ following =
      '"' :: (text.toList.flatMap escapedChar ++ '"' :: following) := by
    simp [stringLiteral, escape]
  rw [hchars, inputs_cons (by decide), inputs_escaped, inputs_cons (by decide)]

/-- The source is not continued by what could belong to a literal. -/
def Ends (rest : List Input) : Prop :=
  Stops (fun c => Text.isIdentifierChar c || c = '.' || c = '"') rest

/-- The text is a literal of the value, or it is none, whatever follows. -/
def ReadsAs (text : String) (value : Option Value) : Prop := ∀ following, Ends (inputs following) →
  readLiteral? (inputs (text.toList ++ following)) = value.map fun v => (v, inputs following)

theorem stringLiteral_readsAs (text : String) :
    ReadsAs (stringLiteral text) (some (.string (text.toList.map .char))) := by
  intro following hends
  have hquote : ¬ (text.toList = [] ∧ (inputs following).head? = some (.char '"')) := by
    rintro ⟨-, hhead⟩
    exact absurd (hends '"' hhead) (by decide)
  rw [inputs_stringLiteral, readLiteral?, string?_escaped, if_neg hquote]
  rfl

theorem readLiteral?_cons {c : Char} (hquote : c ≠ '"') (hminus : c ≠ '-') (rest : List Input) :
    readLiteral? (.char c :: rest) =
      (word? (.char c :: rest)).or (number? false (.char c :: rest)) := by
  unfold readLiteral?
  split <;> simp_all

theorem word?_append {word : List Char} (hword : ∀ c ∈ word, Text.isIdentifierChar c = true)
    (hends : Ends rest) : word? (word.map .char ++ rest) =
      if word = "true".toList then some (.boolean true, rest)
      else if word = "false".toList then some (.boolean false, rest) else none := by
  rw [word?, span_append hword (hends.mono (by simp +contextual))]

theorem bool_readsAs (b : Bool) : ReadsAs (Json.bool b).text (some (.boolean b)) := by
  intro following hends
  cases b with
  | true =>
    have hword := @word?_append _ "true".toList (List.all_eq_true.mp (by decide)) hends
    rw [show (Json.bool true).text = "true" by simp only [Json.text], inputs_append (by decide)]
    refine (readLiteral?_cons (by decide) (by decide) _).trans ?_
    exact congrArg (Option.or · _) hword
  | false =>
    have hword := @word?_append _ "false".toList (List.all_eq_true.mp (by decide)) hends
    rw [show (Json.bool false).text = "false" by simp only [Json.text], inputs_append (by decide)]
    refine (readLiteral?_cons (by decide) (by decide) _).trans ?_
    exact congrArg (Option.or · _) hword

theorem signed_map {more : List Char} (h : more ≠ []) (rest : List Input) :
    signed (more.map .char ++ rest) =
      ((Binary64.signed more).1, (Binary64.signed more).2.map .char ++ rest) := by
  cases more with
  | nil => exact absurd rfl h
  | cons c more =>
    by_cases hminus : c = '-'
    · subst hminus
      rfl
    · by_cases hplus : c = '+'
      · subst hplus
        rfl
      · simp [signed, Binary64.signed, hminus, hplus]

def continues (c : Char) : Bool := c.isDigit || c = '.' || c = 'e' || c = 'E'

theorem exponent?_eq_none (h : Stops continues rest) : exponent? rest = some (none, rest) := by
  unfold exponent?
  split
  · have hmark := h _ rfl
    simp only [continues, Bool.or_eq_false_iff, decide_eq_false_iff_not] at hmark
    rw [if_neg (not_or.mpr ⟨hmark.1.2, hmark.2⟩)]
  · rfl

theorem exponentPart_cons {mark : Char} {more : List Char} {exponent : Int}
    (h : Binary64.exponentPart (mark :: more) = some exponent) :
    (mark = 'e' ∨ mark = 'E') ∧ (Binary64.signed more).2 ≠ [] ∧
      (∀ c ∈ (Binary64.signed more).2, c.isDigit = true) ∧
      exponent = if (Binary64.signed more).1 then -(digitsValue (Binary64.signed more).2 : Int)
        else digitsValue (Binary64.signed more).2 := by
  rw [Binary64.exponentPart] at h
  split at h
  · rename_i hmark
    dsimp only at h
    split at h
    · cases h
    · rename_i hdigits
      rw [Bool.or_eq_true, not_or, List.isEmpty_iff, Bool.not_eq_true', Bool.not_eq_false,
        List.all_eq_true] at hdigits
      exact ⟨hmark, hdigits.1, hdigits.2, (Option.some.inj h).symm⟩
  · cases h

theorem exponent?_part {exponent : Int} (h : Binary64.exponentPart text = some exponent)
    (hrest : Stops continues rest) :
    ∃ found, exponent? (text.map .char ++ rest) = some (found, rest) ∧ found.getD 0 = exponent := by
  cases text with
  | nil =>
    cases h
    exact ⟨none, exponent?_eq_none hrest, rfl⟩
  | cons mark more =>
    obtain ⟨hmark, hne, hdigits, rfl⟩ := exponentPart_cons h
    have hmore : more ≠ [] := by
      rintro rfl
      exact hne rfl
    rw [List.map_cons, List.cons_append, exponent?, if_pos hmark, signed_map hmore]
    dsimp only
    rw [span_append hdigits (hrest.mono (by simp +contextual [continues])),
      if_neg (mt List.isEmpty_iff.mp hne)]
    exact ⟨_, rfl, rfl⟩

theorem stops_part {exponent : Int} (h : Binary64.exponentPart text = some exponent)
    (hrest : Stops continues rest) :
    Stops (fun c => c.isDigit || c = '.') (text.map .char ++ rest) := by
  rcases Binary64.exponentPart_some h with rfl | ⟨mark, more, rfl, hmark⟩
  · exact hrest.mono (by simp +contextual [continues])
  · intro c hc
    obtain rfl : mark = c := by simpa using hc
    rcases hmark with rfl | rfl <;> decide

theorem fraction?_eq_none (h : Stops (fun c => c.isDigit || c = '.') rest) :
    fraction? rest = (none, rest) := by
  unfold fraction?
  split
  · exact absurd (h '.' rfl) (by decide)
  · rfl

theorem figures?_numeral (h : Numeral body decimal) (hrest : Stops continues rest) :
    ∃ f, figures? (body.map .char ++ rest) = some (f, rest) ∧ f.decimal = decimal := by
  cases h with
  | @plain whole more exponent hne hwhole hmore =>
    have hstops := stops_part hmore hrest
    obtain ⟨found, hfound, rfl⟩ := exponent?_part hmore hrest
    refine ⟨⟨whole, none, found⟩, ?_, by simp [Figures.decimal]⟩
    rw [figures?, List.map_append, List.append_assoc,
      span_append hwhole (hstops.mono (by simp +contextual))]
    simp [fraction?_eq_none hstops, hne, hfound]
  | @point whole fraction more exponent hne hwhole hfraction hmore =>
    have hstops := stops_part hmore hrest
    obtain ⟨found, hfound, rfl⟩ := exponent?_part hmore hrest
    refine ⟨⟨whole, some fraction, found⟩, ?_, rfl⟩
    have hpoint : Stops Char.isDigit
        (.char '.' :: ((fraction ++ more).map Input.char ++ rest)) := by
      intro c hc
      obtain rfl : '.' = c := by simpa using hc
      decide
    have hdigits : Stops Char.isDigit (more.map .char ++ rest) :=
      hstops.mono (by simp +contextual)
    have hinner := span_append hfraction hdigits
    rw [figures?, List.map_append, List.append_assoc, List.map_cons, List.cons_append,
      span_append hwhole hpoint]
    simp [fraction?, hinner, hne, hfound]

/-- What is read without a fraction and without an exponent consists of digits. -/
theorem isDigit_of_figures {f : Figures} (h : figures? (body.map .char ++ rest) = some (f, rest))
    (hplain : ¬ (f.fraction.isSome ∨ f.exponent.isSome)) : ∀ c ∈ body, c.isDigit = true := by
  obtain ⟨hsource, hdigits⟩ := span_eq Char.isDigit (body.map .char ++ rest)
  have hfraction : ∀ source, (fraction? source).1 = none → (fraction? source).2 = source := by
    intro source hnone
    unfold fraction? at hnone ⊢
    split at hnone
    · cases hnone
    · rfl
  have hexponent : ∀ source after, exponent? source = some (none, after) → after = source := by
    intro source after hnone
    unfold exponent? at hnone
    split at hnone
    · split at hnone
      · dsimp only at hnone
        split at hnone <;> cases hnone
      · cases hnone
        rfl
    · cases hnone
      rfl
  rw [not_or, Bool.not_eq_true, Option.isSome_eq_false_iff, Option.isNone_iff_eq_none,
    Bool.not_eq_true, Option.isSome_eq_false_iff, Option.isNone_iff_eq_none] at hplain
  rw [figures?] at h
  dsimp only at h
  split at h
  · cases h
  · obtain ⟨⟨exponent, after⟩, hafter, heq⟩ := Option.map_eq_some_iff.mp h
    cases heq
    obtain ⟨hnone, rfl⟩ := hplain
    rw [hfraction _ hnone] at hafter
    have hrest := hexponent _ _ hafter
    rw [← hrest] at hsource
    have hbody := List.map_injective_iff.mpr (fun _ _ h => Input.char.inj h)
      (List.append_cancel_right hsource)
    exact fun c hc => hdigits c ((congrArg (c ∈ ·) hbody).mp hc)

theorem readLiteral?_numeral (h : Numeral body decimal) (negative : Bool) (rest : List Input) :
    readLiteral? ((Binary64.signText negative ++ body).map .char ++ rest) =
      number? negative (body.map .char ++ rest) := by
  cases negative with
  | true => rfl
  | false =>
    obtain ⟨c, more, rfl, hc⟩ := h.head
    have hne : ∀ other : Char, other.isDigit = false → c ≠ other := by
      rintro other hother rfl
      rw [hc] at hother
      cases hother
    have hword : word? (((c :: more).map Input.char) ++ rest) = none := by
      have hident : Text.isIdentifierChar c = true := by
        simp [Text.isIdentifierChar, Char.isAlphanum, hc]
      have hspan : ∀ w : List Char, w.head?.any Char.isDigit = false →
          (span Text.isIdentifierChar (((c :: more).map Input.char) ++ rest)).1 ≠ w := by
        rintro w hw rfl
        rw [List.map_cons, List.cons_append, span, if_pos hident] at hw
        simp [hc] at hw
      unfold word?
      dsimp only
      rw [if_neg (hspan "true".toList (by decide)), if_neg (hspan "false".toList (by decide))]
    have hother := readLiteral?_cons (hne '"' (by decide)) (hne '-' (by decide))
      (more.map .char ++ rest)
    refine hother.trans ?_
    rw [← List.cons_append, ← List.map_cons, hword]
    rfl

def isFigure (c : Char) : Bool := continues c || c = '+' || c = '-'

theorem isFigure_of_digit {c : Char} (h : c.isDigit = true) : isFigure c = true := by
  simp [isFigure, continues, h]

theorem isFigure_part {exponent : Int} (h : Binary64.exponentPart text = some exponent) :
    ∀ c ∈ text, isFigure c = true := by
  have hsigned : ∀ more : List Char, (∀ c ∈ (Binary64.signed more).2, c.isDigit = true) →
      ∀ c ∈ more, isFigure c = true := by
    intro more hall
    unfold Binary64.signed at hall
    split at hall
    · exact List.forall_mem_cons.mpr ⟨by decide, fun c hc => isFigure_of_digit (hall c hc)⟩
    · exact List.forall_mem_cons.mpr ⟨by decide, fun c hc => isFigure_of_digit (hall c hc)⟩
    · exact fun c hc => isFigure_of_digit (hall c hc)
  cases text with
  | nil => exact fun c hc => absurd hc List.not_mem_nil
  | cons mark more =>
    obtain ⟨hmark, -, hdigits, -⟩ := exponentPart_cons h
    refine List.forall_mem_cons.mpr ⟨?_, hsigned more hdigits⟩
    rcases hmark with rfl | rfl <;> decide

theorem isFigure_numeral (h : Numeral body decimal) (negative : Bool) :
    ∀ c ∈ Binary64.signText negative ++ body, isFigure c = true := by
  have hbody : ∀ c ∈ body, isFigure c = true := by
    cases h with
    | plain _ hwhole hrest =>
      exact List.forall_mem_append.mpr ⟨fun c hc => isFigure_of_digit (hwhole c hc),
        isFigure_part hrest⟩
    | point _ hwhole hfraction hrest =>
      exact List.forall_mem_append.mpr ⟨fun c hc => isFigure_of_digit (hwhole c hc),
        List.forall_mem_cons.mpr ⟨by decide, List.forall_mem_append.mpr
          ⟨fun c hc => isFigure_of_digit (hfraction c hc), isFigure_part hrest⟩⟩⟩
  cases negative with
  | true => exact List.forall_mem_cons.mpr ⟨by decide, hbody⟩
  | false => exact hbody

theorem backslash_not_mem_numeral (h : Numeral body decimal) (negative : Bool) :
    '\\' ∉ Binary64.signText negative ++ body :=
  fun hmem => absurd (isFigure_numeral h negative _ hmem) (by decide)

/-- A number is read off its text, up to the suffix. The figures of a double have a fraction or an
exponent. -/
theorem readLiteral?_text {n : JsonNumber} (h : n.WellFormed) {following : List Char}
    (hstops : Stops continues (inputs following)) : ∃ f : Figures, f.decimal.value = n.written ∧
      (∀ x, n = .float x → f.fraction.isSome ∨ f.exponent.isSome) ∧
      readLiteral? (inputs (n.text.toList ++ following)) =
        suffixed? n.isNegative f (inputs following) := by
  obtain ⟨body, decimal, htext, hnumeral, hvalue⟩ := JsonNumber.text_numeral h
  obtain ⟨f, hfigures, rfl⟩ := figures?_numeral hnumeral hstops
  refine ⟨f, hvalue, ?_, ?_⟩
  · rintro x rfl
    by_contra hplain
    have hsign : ∀ c ∈ Binary64.signText (JsonNumber.float x).isNegative, c = '-' := by
      unfold Binary64.signText
      split <;> simp
    have hall : ∀ c ∈ (JsonNumber.float x).text.toList, c = '-' ∨ c.isDigit = true := by
      rw [htext, List.forall_mem_append]
      exact ⟨fun c hc => .inl (hsign c hc),
        fun c hc => .inr (isDigit_of_figures hfigures hplain c hc)⟩
    rcases JsonNumber.shows_double h with hmem | hmem
    · exact absurd (hall _ hmem) (by decide)
    · exact absurd (hall _ hmem) (by decide)
  · rw [htext, inputs_append (backslash_not_mem_numeral hnumeral _), readLiteral?_numeral hnumeral,
      number?, hfigures]
    rfl

theorem readLiteral?_suffix {n : JsonNumber} (h : n.WellFormed) (suffix : String) (mark : Char)
    (hsuffix : suffix.toList = [mark]) (hmark : continues mark = false ∧ mark ≠ '\\')
    (following : List Char) : ∃ f : Figures, f.decimal.value = n.written ∧
      (∀ x, n = .float x → f.fraction.isSome ∨ f.exponent.isSome) ∧
      readLiteral? (inputs ((n.text ++ suffix).toList ++ following)) =
        suffixed? n.isNegative f (.char mark :: inputs following) := by
  obtain ⟨f, hvalue, hshows, hread⟩ := readLiteral?_text h (stops_mark hmark following)
  refine ⟨f, hvalue, hshows, ?_⟩
  rw [String.toList_append, hsuffix, List.append_assoc, List.singleton_append, hread,
    inputs_cons hmark.2]

theorem float_readsAs {n : JsonNumber} (h : n.WellFormed) : ReadsAs (n.text ++ "F")
    ((floating? .single n.written).map (.float n.isNegative)) := by
  intro following _
  obtain ⟨f, hvalue, -, hread⟩ := readLiteral?_suffix h "F" 'F' rfl (by decide) following
  rw [hread, ← hvalue, Option.map_map]
  rfl

theorem double_readsAs {n : JsonNumber} (h : n.WellFormed) : ReadsAs (n.text ++ "D")
    ((floating? .double n.written).map (.double n.isNegative)) := by
  intro following _
  obtain ⟨f, hvalue, -, hread⟩ := readLiteral?_suffix h "D" 'D' rfl (by decide) following
  rw [hread, ← hvalue, Option.map_map]
  rfl

theorem head?_toDigits : ∀ {k : Nat}, 0 < k → (Nat.toDigits 10 k).head? ≠ some '0' := by
  intro k
  induction k using Nat.strong_induction_on with
  | h k ih =>
    intro hk
    rcases Nat.lt_or_ge k 10 with hless | hge
    · rw [Nat.toDigits_of_lt_base hless]
      simpa using hk.ne'
    · rw [Nat.toDigits_of_base_le (by decide) hge,
        List.head?_append_of_ne_nil _ Nat.toDigits_ne_nil]
      exact ih _ (Nat.div_lt_self hk (by decide)) (Nat.div_pos hge (by decide))

theorem leading_zero {k : Nat} (h : (toString k).toList.head? = some '0') :
    (toString k).toList.length = 1 := by
  rcases Nat.eq_zero_or_pos k with rfl | hk
  · rfl
  · rw [Nat.toString_eq_repr, Nat.toList_repr] at h
    exact absurd h (head?_toDigits hk)

theorem figures?_toString (k : Nat) (hrest : Stops continues rest) :
    figures? ((toString k).toList.map .char ++ rest) =
      some (⟨(toString k).toList, none, none⟩, rest) := by
  have hdigits : ∀ c ∈ (toString k).toList, c.isDigit = true :=
    fun _ => Binary64.isDigit_of_mem_toString
  have hstops : Stops (fun c => c.isDigit || c = '.') rest :=
    hrest.mono (by simp +contextual [continues])
  rw [figures?, span_append hdigits (hstops.mono (by simp +contextual))]
  dsimp only
  rw [fraction?_eq_none hstops, exponent?_eq_none hrest, if_neg (by simp)]
  rfl

theorem integer?_toString (n : Int) {least most : Int} (hleast : -most - 1 = least) :
    integer? most (JsonNumber.integer n).isNegative ⟨(toString n.natAbs).toList, none, none⟩ =
      if least ≤ n ∧ n ≤ most then some n else none := by
  have hvalue :
      (if (JsonNumber.integer n).isNegative then -(n.natAbs : Int) else n.natAbs) = n := by
    simp only [JsonNumber.isNegative, decide_eq_true_eq]
    split <;> omega
  rw [integer?]
  dsimp only
  rw [Binary64.digitsValue_toString, hvalue, hleast, if_neg]
  rintro (hfraction | hexponent | ⟨hhead, hlength⟩)
  · cases hfraction
  · cases hexponent
  · exact hlength (leading_zero hhead)

theorem readLiteral?_integer (n : Int) {following : List Char}
    (hstops : Stops continues (inputs following)) :
    readLiteral? (inputs ((toString n).toList ++ following)) =
      suffixed? (JsonNumber.integer n).isNegative ⟨(toString n.natAbs).toList, none, none⟩
        (inputs following) := by
  have hnumeral : Numeral (toString n.natAbs).toList
    ⟨digitsValue (toString n.natAbs).toList, 0⟩ := by
    have hplain := @Numeral.plain _ [] 0 (Binary64.toString_ne_nil n.natAbs)
      (fun _ => Binary64.isDigit_of_mem_toString) rfl
    rwa [List.append_nil] at hplain
  have htext : (toString n).toList = _ := JsonNumber.text_integer n
  rw [htext, inputs_append (backslash_not_mem_numeral hnumeral _), readLiteral?_numeral hnumeral,
    number?, figures?_toString _ hstops]
  rfl

theorem Ends.continues (h : Ends rest) : Stops continues rest := by
  refine h.mono fun c hc => ?_
  simp only [Java.continues, Bool.or_eq_true, decide_eq_true_eq] at hc
  rcases hc with ((hdigit | rfl) | rfl) | rfl
  · simp [Text.isIdentifierChar, Char.isAlphanum, hdigit]
  all_goals decide

theorem Ends.suffixed? (h : Ends rest) (negative : Bool) (f : Figures) :
    Java.suffixed? negative f rest =
      suffixed?.plain negative f rest (floating? .double f.decimal.value) := by
  have hsuffix : ∀ suffix ∈ ['F', 'f', 'D', 'd', 'L', 'l'], rest.head? ≠ some (.char suffix) := by
    intro suffix hmem hhead
    have hall : ∀ suffix ∈ ['F', 'f', 'D', 'd', 'L', 'l'],
        Text.isIdentifierChar suffix = true := List.all_eq_true.mp (by decide)
    have hnot := h suffix hhead
    simp [hall suffix hmem] at hnot
  simp only [List.forall_mem_cons] at hsuffix
  unfold Java.suffixed?
  dsimp only
  split
  · simp_all
  · rfl

theorem suffixed?_long (negative : Bool) (f : Figures) (rest : List Input) :
    suffixed? negative f (.char 'L' :: rest) =
      (integer? JsonNumber.signedMax negative f).map fun n => (.long n, rest) := rfl

theorem int_readsAs (n : Int) : ReadsAs (toString n)
    (if -2147483648 ≤ n ∧ n ≤ 2147483647 then some (.int n) else none) := by
  intro following hends
  rw [readLiteral?_integer n hends.continues, hends.suffixed?, suffixed?.plain, if_neg (by simp),
    integer?_toString n (show -2147483647 - 1 = -2147483648 by decide)]
  split <;> rfl

theorem long_readsAs (n : Int) : ReadsAs (toString n ++ "L")
    (if JsonNumber.signedMin ≤ n ∧ n ≤ JsonNumber.signedMax then some (.long n) else none) := by
  intro following _
  have hsource : (toString n ++ "L").toList ++ following = (toString n).toList ++
    'L' :: following := by
    simp
  rw [hsource, readLiteral?_integer n (stops_mark (by decide) following), inputs_cons (by decide),
    suffixed?_long,
    integer?_toString n (show -JsonNumber.signedMax - 1 = JsonNumber.signedMin by decide)]
  split <;> rfl

theorem plain_readsAs {x : Binary64} (h : (JsonNumber.float x).WellFormed) :
    ReadsAs (JsonNumber.float x).text ((floating? .double (JsonNumber.float x).written).map
      (.double (JsonNumber.float x).isNegative)) := by
  intro following hends
  obtain ⟨f, hvalue, hshows, hread⟩ := readLiteral?_text h hends.continues
  rw [hread, hends.suffixed?, suffixed?.plain, if_pos (hshows x rfl), hvalue, Option.map_map]
  rfl

theorem longDouble_readsAs {x : Binary64} (h : (JsonNumber.float x).WellFormed) :
    ReadsAs ((JsonNumber.float x).text ++ "L") none := by
  intro following _
  obtain ⟨f, -, hshows, hread⟩ := readLiteral?_suffix h "L" 'L' rfl (by decide) following
  have hinteger : integer? JsonNumber.signedMax (JsonNumber.float x).isNegative f = none := by
    rw [integer?]
    exact if_pos ((hshows x rfl).imp_right .inl)
  rw [hread, suffixed?_long, hinteger]
  rfl

end SchemaBeans.Java
