import SchemaBeans.Proofs.Java.Literals

/-! # Expressions

The expression behind a field is a literal, or a new collection of the literals in a list. An
expression is read up to the semicolon behind it. A row of literals is read if each of them is,
and what it denotes is the row of their values. -/
namespace SchemaBeans.Java

inductive Expression where
  | literal (value : Value)
  | collection (implementation element : String) (items : List Value)
  deriving DecidableEq

def isBlank (c : Char) : Bool := c = ' ' || c = '\t' || c = '\x0c' || c = '\n' || c = '\r'

def skip (source : List Input) : List Input := (span isBlank source).2

/-- A word, which may be empty. -/
def word (source : List Input) : String × List Input :=
  (String.ofList (span Text.isIdentifierChar (skip source)).1,
    (span Text.isIdentifierChar (skip source)).2)

def expect? : List String → List Input → Option (List Input)
  | [], source => some source
  | token :: tokens, source =>
    if token.toList.map .char <+: skip source then
      expect? tokens ((skip source).drop token.toList.length)
    else none

/-- At least one and at most so many literals, with commas between them. -/
def items? : Nat → List Input → Option (List Value × List Input)
  | 0, _ => none
  | most + 1, source =>
    (readLiteral? (skip source)).bind fun (value, rest) =>
      match expect? [","] rest with
      | some more => (items? most more).map fun (values, after) => (value :: values, after)
      | none => some ([value], rest)

def newCollection? (most : Nat) (source : List Input) : Option (Expression × List Input) :=
  let (implementation, opened) := word source
  (expect? ["<"] opened).bind fun named =>
    let (element, closed) := word named
    (expect? [">", "(", "Arrays", ".", "asList", "("] closed).bind fun listed =>
      (items? most listed).bind fun (items, ended) =>
        (expect? [")", ")"] ended).map fun after =>
          (.collection implementation element items, after)

/-- The expression at the beginning of the source, with at most so many items. -/
def expression? (most : Nat) (source : List Input) : Option (Expression × List Input) :=
  if (word source).1 = "new" then newCollection? most (word source).2
  else (readLiteral? (skip source)).map fun (value, after) => (.literal value, after)

/-- The text is an expression of the value in front of a semicolon, whatever follows. A text has no
more items than characters. -/
def Expresses (text : String) (e : Expression) : Prop := ∀ following,
  expression? text.length (inputs (text.toList ++ ';' :: following)) =
    some (e, .char ';' :: inputs following)

variable {text : String} {following : List Char} {most : Nat}

def opensLiteral (c : Char) : Bool :=
  c = '"' || c = '-' || c.isDigit || c = 't' || c = 'f'

def Opens (text : String) : Prop := ∃ c rest, text.toList = c :: rest ∧ opensLiteral c = true

theorem Opens.append (h : Opens text) (suffix : String) : Opens (text ++ suffix) := by
  obtain ⟨c, rest, htext, hc⟩ := h
  exact ⟨c, rest ++ suffix.toList, by rw [String.toList_append, htext, List.cons_append], hc⟩

theorem opens_stringLiteral (text : String) : Opens (stringLiteral text) :=
  ⟨'"', (escape text ++ "\"").toList, by simp [stringLiteral], rfl⟩

theorem opens_bool (b : Bool) : Opens (Json.bool b).text := by
  cases b with
  | true => exact ⟨'t', "rue".toList, by simp only [Json.text]; rfl, rfl⟩
  | false => exact ⟨'f', "alse".toList, by simp only [Json.text]; rfl, rfl⟩

theorem opens_number {n : JsonNumber} (h : n.WellFormed) : Opens n.text := by
  obtain ⟨body, decimal, htext, hnumeral, -⟩ := JsonNumber.text_numeral h
  obtain ⟨c, more, rfl, hc⟩ := hnumeral.head
  cases hsign : n.isNegative with
  | true => exact ⟨'-', c :: more, by rw [htext, hsign]; rfl, rfl⟩
  | false => exact ⟨c, more, by rw [htext, hsign]; rfl, by simp [opensLiteral, hc]⟩

theorem Opens.inputs_eq (h : Opens text) (following : List Char) : ∃ c rest,
    inputs (text.toList ++ following) = .char c :: rest ∧ opensLiteral c = true := by
  obtain ⟨c, rest, htext, hc⟩ := h
  have hplain : c ≠ '\\' := by
    rintro rfl
    cases hc
  exact ⟨c, inputs (rest ++ following), by rw [htext, List.cons_append, inputs_cons hplain], hc⟩

theorem skip_cons {c : Char} (h : opensLiteral c = true ∨ Text.isIdentifierChar c = true)
    (rest : List Input) : skip (.char c :: rest) = .char c :: rest := by
  have hblank : isBlank c ≠ true := by
    intro hblank
    simp only [isBlank, Bool.or_eq_true, decide_eq_true_eq] at hblank
    rcases hblank with (((rfl | rfl) | rfl) | rfl) | rfl <;> exact absurd h (by decide)
  rw [skip, span, if_neg hblank]

theorem Opens.skip_eq (h : Opens text) (following : List Char) :
    skip (inputs (text.toList ++ following)) = inputs (text.toList ++ following) := by
  obtain ⟨c, rest, heq, hc⟩ := h.inputs_eq following
  rw [heq, skip_cons (.inl hc)]

theorem Opens.word_ne (h : Opens text) (following : List Char) :
    (word (inputs (text.toList ++ following))).1 ≠ "new" := by
  obtain ⟨c, rest, heq, hc⟩ := h.inputs_eq following
  have hnot : c ≠ 'n' := by
    rintro rfl
    cases hc
  rw [word, h.skip_eq, heq, span]
  intro hword
  have hchars := congrArg String.toList hword
  split at hchars
  · simp [hnot] at hchars
  · simp at hchars

theorem expression?_literal {value : Option Value} (hopens : Opens text) (h : ReadsAs text value) :
    expression? most (inputs (text.toList ++ ';' :: following)) =
      value.map fun v => (.literal v, .char ';' :: inputs following) := by
  rw [expression?, if_neg (hopens.word_ne _), hopens.skip_eq, h _ (stops_mark (by decide) _),
    Option.map_map, inputs_cons (by decide)]
  rfl

theorem items?_blank (most : Nat) (source : List Input) :
    items? most (.char ' ' :: source) = items? most source := by
  cases most <;> rfl

variable {α : Type} {f : α → Option Value} {items : List α} {texts : List String}

/-- A row of literals in front of a closing parenthesis is read as the row of their values, or it is
none if one of them is none. -/
theorem items?_intercalate
    (h : List.Forall₂ (fun text item => Opens text ∧ ReadsAs text (f item)) texts items)
    (hne : texts ≠ []) (hmost : texts.length ≤ most) :
    items? most (inputs ((", ".intercalate texts).toList ++ ')' :: following)) =
      (items.mapM f).map fun values => (values, .char ')' :: inputs following) := by
  induction h generalizing most with
  | nil => exact absurd rfl hne
  | @cons text item texts items hfirst hrest ih =>
    obtain ⟨most, rfl⟩ : ∃ k, most = k + 1 := ⟨most - 1, by simp at hmost; omega⟩
    obtain ⟨hopens, hreads⟩ := hfirst
    cases hrest with
    | nil =>
      rw [String.intercalate_singleton, items?, hopens.skip_eq, hreads _ (stops_mark (by decide) _),
        inputs_cons (by decide), List.mapM_cons]
      cases f item <;> rfl
    | @cons next second others more =>
      have hsource : (", ".intercalate (text :: next :: others)).toList ++ ')' :: following =
          text.toList ++ ',' :: ' ' ::
            ((", ".intercalate (next :: others)).toList ++ ')' :: following) := by
        rw [String.intercalate_cons_cons]
        simp
      have hcomma : ∀ source : List Input,
          expect? [","] (.char ',' :: .char ' ' :: source) = some (.char ' ' :: source) :=
        fun _ => rfl
      have htail := ih (List.cons_ne_nil _ _) (by simpa using hmost)
      rw [hsource, items?, hopens.skip_eq, hreads _ (stops_mark (by decide) _),
        inputs_cons (by decide), inputs_cons (by decide), List.mapM_cons]
      cases f item with
      | none => rfl
      | some v =>
        simp only [Option.map_some, Option.bind_some, hcomma, items?_blank, htail]
        cases (second :: more).mapM f <;> rfl

theorem length_le_intercalate (texts : List String) :
    texts.length ≤ (", ".intercalate texts).length + 1 := by
  induction texts with
  | nil => exact Nat.zero_le _
  | cons text rest ih =>
    cases rest with
    | nil => simp
    | cons next others =>
      have hcomma : ", ".length = 2 := rfl
      rw [String.intercalate_cons_cons, String.length_append, String.length_append, hcomma]
      rw [List.length_cons]
      omega

theorem mapM_eq_some_iff {values : List Value} :
    items.mapM f = some values ↔
    List.Forall₂ (fun item value => f item = some value) items values := by
  induction items generalizing values with
  | nil => simp [eq_comm]
  | cons item items ih =>
    rw [List.mapM_cons, List.forall₂_cons_left_iff]
    cases hitem : f item with
    | none => simp
    | some v =>
      cases hrest : items.mapM f with
      | none => simp [← ih, hrest]
      | some vs => simp [← ih, hrest, eq_comm]

def isWord (name : String) : Bool := !name.isEmpty && name.toList.all Text.isIdentifierChar

theorem word_append {name : String} (hname : isWord name = true) {mark : Char}
    (hmark : Text.isIdentifierChar mark = false ∧ mark ≠ '\\') (following : List Char) :
    word (inputs (name.toList ++ mark :: following)) = (name, .char mark :: inputs following) := by
  simp only [isWord, Bool.and_eq_true, Bool.not_eq_true', List.all_eq_true] at hname
  obtain ⟨hne, hall⟩ := hname
  have hplain : '\\' ∉ name.toList := fun hmem => absurd (hall _ hmem) (by decide)
  have hskip : skip (inputs (name.toList ++ mark :: following)) =
      name.toList.map .char ++ inputs (mark :: following) := by
    rw [inputs_append hplain]
    cases hchars : name.toList with
    | nil => simp [String.toList_eq_nil_iff.mp hchars] at hne
    | cons c rest =>
      have hc := hall c (by rw [hchars]; exact List.mem_cons_self)
      exact skip_cons (.inr hc) _
  rw [word, hskip, span_append hall (stops_mark hmark following), String.ofList_toList,
    inputs_cons hmark.2]

def newCollection (implementation element : String) (texts : List String) : String :=
  "new " ++ implementation ++ "<" ++ element ++ ">(Arrays.asList(" ++ ", ".intercalate texts ++ "))"

/-- A new collection is read with the values of its row, or it is none if the row is none. -/
theorem expression?_collection {implementation element : String}
    (himplementation : isWord implementation = true) (helement : isWord element = true)
    (h : List.Forall₂ (fun text item => Opens text ∧ ReadsAs text (f item)) texts items)
    (hne : texts ≠ []) :
    expression? (newCollection implementation element texts).length
        (inputs ((newCollection implementation element texts).toList ++ ';' :: following)) =
      (items.mapM f).map fun values =>
        (.collection implementation element values, .char ';' :: inputs following) := by
  have hsource : (newCollection implementation element texts).toList ++ ';' :: following =
      "new".toList ++ ' ' :: (implementation.toList ++ '<' :: (element.toList ++ '>' ::
        ("(Arrays.asList(".toList ++
          ((", ".intercalate texts).toList ++ ')' :: ')' :: ';' :: following)))) := by
    simp [newCollection]
  have hmost : texts.length ≤ (newCollection implementation element texts).length := by
    have hclosed : "))".length = 2 := rfl
    have := length_le_intercalate texts
    rw [newCollection, String.length_append, String.length_append, hclosed]
    omega
  have hblank : ∀ source, word (.char ' ' :: source) = word source := fun _ => rfl
  have hfirst := @word_append implementation himplementation '<' (by decide)
  have hsecond := @word_append element helement '>' (by decide)
  have hopened : ∀ source : List Input, expect? ["<"] (.char '<' :: source) = some source :=
    fun _ => rfl
  have hlisted : ∀ source : List Input, expect? [">", "(", "Arrays", ".", "asList", "("]
      (.char '>' :: ("(Arrays.asList(".toList.map .char ++ source)) = some source := fun _ => rfl
  have hended : ∀ source : List Input, expect? [")", ")"] (.char ')' :: .char ')' :: source) =
      some source := fun _ => rfl
  rw [hsource, expression?, word_append (by decide) (by decide), if_pos rfl, newCollection?]
  simp only [hblank, hfirst, hopened, Option.bind_some, hsecond]
  rw [inputs_append (by decide), hlisted, Option.bind_some, items?_intercalate h hne hmost,
    inputs_cons (by decide), inputs_cons (by decide)]
  cases items.mapM f with
  | none => rfl
  | some values => simp only [Option.map_some, Option.bind_some, hended]

end SchemaBeans.Java
