import SchemaBeans.Proofs.Java.Escapes
import SchemaBeans.Proofs.Java.Unbroken

/-! # Documentation as a comment

Documentation is written as one comment. It is read as one exactly if none of its lines has a
malformed Unicode escape or spells the end of a comment with one; the plain end of a comment is
replaced. So documentation without an eligible `\u` is always read as one comment. -/
namespace SchemaBeans.Java

variable {xs ys zs : List Input} {text : List Char} {indent : Nat} {body : Lines}

/-- What follows a comment that has been opened. -/
def afterComment? : List Input → Option (List Input)
  | [] => none
  | first :: rest =>
    if first = .malformed then none
    else if first = .char '*' ∧ rest.head? = some (.char '/') then some rest.tail
    else afterComment? rest

def comment? : List Input → Option (List Input)
  | .char '/' :: .char '*' :: rest => afterComment? rest
  | _ => none

/-- The lines are one comment behind blanks, whatever follows: the first end of a comment is the
end of the last line. -/
def IsComment (lines : Lines) : Prop := ∀ following,
  comment? ((inputs ((textOf lines).toList ++ following)).dropWhile (· = .char ' ')) =
    some (.char '\n' :: inputs following)

/-- The end of a comment stands among the inputs. -/
def closes : List Input → Bool
  | [] => false
  | first :: rest => (first = .char '*' && rest.head? = some (.char '/')) || closes rest

/-- The text neither ends the comment that it stands in nor makes the source malformed. -/
structure Harmless (text : List Char) : Prop where
  valid : .malformed ∉ inputs text
  within : closes (inputs text) = false

theorem closes_cons {first : Input} : closes (first :: xs) = true ↔
    first = .char '*' ∧ xs.head? = some (.char '/') ∨ closes xs = true := by
  simp [closes]

theorem afterComment?_line (hvalid : .malformed ∉ xs) (hopen : closes xs = false) :
    afterComment? (xs ++ .char '\n' :: ys) = afterComment? ys := by
  induction xs with
  | nil => simp [afterComment?]
  | cons first rest ih =>
    rw [List.mem_cons, not_or] at hvalid
    rw [← Bool.not_eq_true, closes_cons, not_or, Bool.not_eq_true] at hopen
    have hfirst : ¬ (first = .char '*' ∧ (rest ++ .char '\n' :: ys).head? = some (.char '/')) := by
      cases rest with
      | nil => simp
      | cons => exact hopen.1
    rw [List.cons_append, afterComment?, if_neg (Ne.symm hvalid.1), if_neg hfirst]
    exact ih hvalid.2 hopen.2

theorem afterComment?_closes (hvalid : .malformed ∉ xs) (hcloses : closes xs = true)
    (ys : List Input) : ∃ more, afterComment? (xs ++ ys) = some (more ++ ys) := by
  induction xs with
  | nil => cases hcloses
  | cons first rest ih =>
    rw [List.mem_cons, not_or] at hvalid
    rw [List.cons_append, afterComment?, if_neg (Ne.symm hvalid.1)]
    split
    · rename_i hfirst
      rcases closes_cons.mp hcloses with hpair | hrest
      · cases rest with
        | nil => cases hpair.2
        | cons second more => exact ⟨more, rfl⟩
      · cases rest with
        | nil => cases hrest
        | cons second more => exact ⟨more, rfl⟩
    · rename_i hfirst
      refine ih hvalid.2 ((closes_cons.mp hcloses).resolve_left fun hpair => hfirst ⟨hpair.1, ?_⟩)
      rw [List.head?_append, hpair.2, Option.some_or]

theorem suffix_of_afterComment? (h : afterComment? xs = some ys) : ys <:+ xs := by
  induction xs with
  | nil => cases h
  | cons first rest ih =>
    rw [afterComment?] at h
    split at h
    · cases h
    · split at h
      · cases h
        exact (List.tail_suffix rest).trans (List.suffix_cons first rest)
      · exact (ih h).trans (List.suffix_cons first rest)

theorem textOf_append_cons (l : String) (rest : Lines) (following : List Char) :
    (textOf (l :: rest)).toList ++ following =
      l.toList ++ '\n' :: ((textOf rest).toList ++ following) := by
  simp [textOf_cons]

theorem closes_append (hopen : closes xs = false) (hlast : xs.getLast? ≠ some (.char '*')) :
    closes (xs ++ ys) = closes ys := by
  induction xs with
  | nil => rfl
  | cons first rest ih =>
    rw [← Bool.not_eq_true, closes_cons, not_or, Bool.not_eq_true] at hopen
    cases rest with
    | nil => simp_all [closes]
    | cons second more =>
      have hpair : ¬ (first = .char '*' ∧ second = .char '/') := by simpa using hopen.1
      rw [List.cons_append, closes, ih hopen.2 (by simpa [List.getLast?_cons] using hlast)]
      simp [← Bool.decide_and, hpair]

theorem closes_map (text : List Char) : closes (text.map .char) = Text.hasPair '*' '/' text := by
  induction text with
  | nil => rfl
  | cons first rest ih =>
    rw [List.map_cons, closes, ih]
    cases rest with
    | nil => simp [Text.hasPair]
    | cons second more => simp [Text.hasPair]

theorem harmless_append {before : List Char} (hplain : '\\' ∉ before)
    (hopen : Text.hasPair '*' '/' before = false) (hlast : before.getLast? ≠ some '*') :
    Harmless (before ++ text) ↔ Harmless text := by
  have hcloses : closes (before.map .char ++ inputs text) = closes (inputs text) :=
    closes_append (by rw [closes_map, hopen]) (by simpa [List.getLast?_map] using hlast)
  constructor
  · rintro ⟨hvalid, hwithin⟩
    rw [inputs_append hplain] at hvalid hwithin
    exact ⟨fun h => hvalid (List.mem_append_right _ h), hcloses ▸ hwithin⟩
  · rintro ⟨hvalid, hwithin⟩
    constructor
    · rw [inputs_append hplain, List.mem_append, not_or]
      exact ⟨by simp, hvalid⟩
    · rw [inputs_append hplain, hcloses, hwithin]

theorem closing_line (indent : Nat) (following : List Char) :
    afterComment? (inputs ((textOf [line indent " */"]).toList ++ following)) =
      some (.char '\n' :: inputs following) := by
  have hblanks : ∀ n, afterComment? ((List.replicate n ' ').map .char ++
      .char ' ' :: .char '*' :: .char '/' :: .char '\n' :: inputs following) =
        some (.char '\n' :: inputs following) := by
    intro n
    induction n with
    | zero => simp [afterComment?]
    | succ n ih => simpa [List.replicate_succ, afterComment?] using ih
  rw [textOf_append_cons, line_toList indent (by decide), List.append_assoc,
    inputs_append (by simp)]
  simpa [inputs_cons, textOf] using hblanks (4 * indent)

theorem afterComment?_body (h : ∀ l ∈ body, Harmless l.toList) (following : List Char) :
    afterComment? (inputs ((textOf (body ++ [line indent " */"])).toList ++ following)) =
      some (.char '\n' :: inputs following) := by
  induction body with
  | nil => exact closing_line indent following
  | cons l rest ih =>
    obtain ⟨hvalid, hopen⟩ := h l List.mem_cons_self
    rw [List.cons_append, textOf_append_cons, inputs_line, if_neg hvalid,
      afterComment?_line hvalid hopen]
    exact ih fun other hother => h other (List.mem_cons_of_mem _ hother)

theorem harmless_of_afterComment?
    (h : afterComment? (inputs (textOf (body ++ [line indent " */"])).toList) =
      some [.char '\n']) : ∀ l ∈ body, Harmless l.toList := by
  induction body with
  | nil => exact fun _ hl => absurd hl List.not_mem_nil
  | cons l rest ih =>
    have hlines := textOf_append_cons l (rest ++ [line indent " */"]) []
    rw [List.append_nil, List.append_nil] at hlines
    rw [List.cons_append, hlines, inputs_line] at h
    split at h
    · rename_i hmalformed
      -- What is left of the inputs ends with the malformed escape.
      rw [List.append_nil] at h
      obtain ⟨before, hbefore⟩ := suffix_of_afterComment? h
      have hlast := getLast?_inputs hmalformed
      rw [← hbefore, List.getLast?_append] at hlast
      simp at hlast
    · rename_i hvalid
      cases hcloses : closes (inputs l.toList) with
      | false =>
        rw [afterComment?_line hvalid hcloses] at h
        exact List.forall_mem_cons.mpr ⟨⟨hvalid, hcloses⟩, ih h⟩
      | true =>
        -- The closing line is left over.
        obtain ⟨more, hmore⟩ := afterComment?_closes hvalid hcloses
          (.char '\n' :: inputs (textOf (rest ++ [line indent " */"])).toList)
        rw [hmore, Option.some.injEq] at h
        have hleft : inputs (textOf (rest ++ [line indent " */"])).toList ≠ [] := by
          refine inputs_ne_nil ?_
          cases rest <;> simp [textOf_cons]
        have hlength := congrArg List.length h
        have hpos := List.length_pos_iff.mpr hleft
        simp only [List.length_append, List.length_cons, List.length_nil] at hlength
        omega

def docChars (text : List Char) : List Char :=
  Text.replacePair '*' '/' "*&#47;".toList (Text.trimEnd text)

theorem harmless_line (indent : Nat) {text : String} (h : text ≠ "") :
    Harmless (line indent text).toList ↔ Harmless text.toList := by
  rw [line_toList indent h]
  have hblanks : ∀ n, Text.hasPair '*' '/' (List.replicate n ' ') = false := by
    intro n
    induction n with
    | zero => rfl
    | succ n ih => rw [List.replicate_succ, Text.hasPair_cons (by decide), ih]
  exact harmless_append (by simp) (hblanks _) (by simp [List.getLast?_replicate])

theorem harmless_docLine (text : List Char) :
    Harmless (docLine indent text).toList ↔ Harmless (docChars text) := by
  have hchars : (" * " ++ String.ofList (docChars text)).toList =
      [' ', '*', ' '] ++ docChars text := by simp
  rw [docLine, ← docChars, harmless_line indent (by simp), hchars]
  exact harmless_append (by decide) (by decide) (by decide)

theorem harmless_plain {text : List Char} (hescapes : escapes false text = false)
    (hopen : Text.hasPair '*' '/' text = false) : Harmless text := by
  rw [← closes_map] at hopen
  rw [← inputs_of_escapes hescapes] at hopen
  exact ⟨by simp [inputs_of_escapes hescapes], hopen⟩

theorem docParagraphs_harmless_iff (indent : Nat) (texts : List String) :
    (∀ l ∈ docParagraphs indent texts, Harmless l.toList) ↔
      ∀ text ∈ texts, ∀ l ∈ Text.lines text.toList, Harmless (docChars l) := by
  have hparagraph : ∀ text, (∀ l ∈ docParagraph indent text, Harmless l.toList) ↔
      ∀ l ∈ Text.lines text.toList, Harmless (docChars l) := by
    intro text
    simp only [docParagraph, List.forall_mem_map, harmless_docLine]
  have hmark : Harmless (line indent " * <p>").toList :=
    (harmless_line indent (by decide)).mpr (harmless_plain (by decide) (by decide))
  induction texts with
  | nil => simp [docParagraphs]
  | cons text rest ih =>
    cases rest with
    | nil => simpa [docParagraphs] using hparagraph text
    | cons next others =>
      rw [docParagraphs, List.forall_mem_append, List.forall_mem_cons,
        List.forall_mem_cons (a := text)]
      · exact and_congr (hparagraph text) ((and_iff_right hmark).trans ih)
      · simp

theorem isComment_iff : IsComment (line indent "/**" :: body ++ [line indent " */"]) ↔
    ∀ l ∈ body, Harmless l.toList := by
  have hopen : ∀ following, comment? ((inputs ((textOf (line indent "/**" :: body ++
      [line indent " */"])).toList ++ following)).dropWhile (· = .char ' ')) =
      afterComment? (inputs ((textOf (body ++ [line indent " */"])).toList ++ following)) := by
    intro following
    rw [List.cons_append, textOf_append_cons, line_toList indent (by decide), List.append_assoc,
      inputs_append (by simp), List.dropWhile_append_of_pos (by simp)]
    simp [inputs_cons, comment?, afterComment?]
  constructor
  · intro h
    refine @harmless_of_afterComment? indent body ?_
    rw [← List.append_nil (textOf _).toList, ← hopen []]
    exact h []
  · intro h following
    rw [hopen following]
    exact afterComment?_body h following

theorem javadoc_isComment_iff (indent : Nat) (directives : List Directive) :
    javadoc indent directives = [] ∨ IsComment (javadoc indent directives) ↔
      ∀ text ∈ docTexts directives, ∀ l ∈ Text.lines text.toList, Harmless (docChars l) := by
  rw [← docParagraphs_harmless_iff indent]
  unfold javadoc
  dsimp only
  split
  · rename_i hnone
    rw [Bool.and_eq_true_iff, List.isEmpty_iff] at hnone
    simp [hnone.1, docParagraphs]
  · rw [or_iff_right (by simp), List.append_assoc, List.append_assoc, List.singleton_append,
      ← List.append_assoc, ← List.cons_append, isComment_iff, List.forall_mem_append]
    refine and_iff_left fun l hl => ?_
    rw [List.mem_ite_nil_right, List.mem_singleton] at hl
    rw [hl.2]
    exact (harmless_line indent (by decide)).mpr (harmless_plain (by decide) (by decide))

theorem escapes_of_prefix {before : List Char} (hbefore : before <+: text)
    (h : escapes false text = false) : escapes false before = false := by
  obtain ⟨rest, rfl⟩ := hbefore
  exact escapes_of_append h

theorem escapes_piece {piece : List Char} (hpiece : piece ∈ Text.pieces '\n' text)
    (h : escapes false text = false) : escapes false piece = false := by
  rw [← Text.join_pieces '\n' text] at h
  generalize Text.pieces '\n' text = pieces at hpiece h
  induction pieces with
  | nil => cases hpiece
  | cons first rest ih =>
    by_cases hrest : rest = []
    · subst hrest
      rwa [List.mem_singleton.mp hpiece]
    · rw [Text.join_cons hrest, List.append_assoc, List.singleton_append, escapes_append_line,
        Bool.or_eq_false_iff] at h
      rcases List.mem_cons.mp hpiece with rfl | hpiece
      · exact h.1
      · exact ih hpiece h.2

theorem escapes_replacePair (h : escapes false text = false) :
    escapes false (Text.replacePair '*' '/' "*&#47;".toList text) = false := by
  have hfrom : ∀ eligible, escapes eligible text = false →
      escapes eligible (Text.replacePair '*' '/' "*&#47;".toList text) = false := by
    clear h
    induction text using Text.replacePair.induct '*' '/' with
    | case1 x y rest hpair ih =>
      obtain ⟨rfl, rfl⟩ := hpair
      intro eligible h
      rw [Text.replacePair, if_pos ⟨rfl, rfl⟩]
      have hrest : escapes false rest = false := by cases eligible <;> simpa [escapes] using h
      have hdone := ih false hrest
      cases eligible <;> simpa [escapes] using hdone
    | case2 x y rest hpair ih =>
      intro eligible h
      rw [Text.replacePair, if_neg hpair]
      cases eligible with
      | false => exact ih _ h
      | true =>
        have hboth : x ≠ 'u' ∧ escapes false (y :: rest) = false := by simpa [escapes] using h
        simpa [escapes, hboth.1] using ih false hboth.2
    | case3 rest hshort =>
      intro eligible h
      rwa [Text.replacePair.eq_2 _ _ _ _ hshort]
  exact hfrom false h

theorem harmless_docChars (h : escapes false text = false) : ∀ l ∈ Text.lines text,
    Harmless (docChars l) := by
  intro l hl
  obtain ⟨piece, hpiece, hbegins⟩ := Text.exists_piece_of_mem_lines hl
  have htrimmed : Text.trimEnd l <+: l := by
    rw [← List.reverse_suffix, Text.trimEnd, List.reverse_reverse]
    exact List.dropWhile_suffix _
  have hplain := escapes_of_prefix (htrimmed.trans hbegins) (escapes_piece hpiece h)
  exact harmless_plain (escapes_replacePair hplain) (Text.hasPair_replacePair _)

/-- Documentation is one comment exactly if none of its lines has a malformed escape or spells the
end of a comment with an escape. This is so if its texts have no eligible `\u` at all. -/
theorem documentation_comment (indent : Nat) (directives : List Directive) :
    (javadoc indent directives = [] ∨ IsComment (javadoc indent directives) ↔
      ∀ text ∈ docTexts directives, ∀ l ∈ Text.lines text.toList, Harmless (docChars l)) ∧
    ((∀ text ∈ docTexts directives, escapes false text.toList = false) →
      javadoc indent directives = [] ∨ IsComment (javadoc indent directives)) := by
  have hiff := javadoc_isComment_iff indent directives
  exact ⟨hiff, fun h => hiff.mpr fun text htext => harmless_docChars (h text htext)⟩

theorem documentation_comment_path :
    IsComment (javadoc 1 [.doc "Read from C:\\temp\\User.json, or **/ *.json", .requiredDoc]) := by
  refine ((documentation_comment 1 _).2 ?_).resolve_left (by decide)
  decide

/-- An escape ends the comment early, and a path makes the source malformed. -/
theorem documentation_broken :
    ¬ (javadoc 0 [.doc "*\\u002f"] = [] ∨ IsComment (javadoc 0 [.doc "*\\u002f"])) ∧
    ¬ (javadoc 0 [.doc "C:\\users"] = [] ∨ IsComment (javadoc 0 [.doc "C:\\users"])) := by
  have hbroken : ∀ text, javadoc 0 [.doc text] ≠ [] →
      comment? ((inputs ((textOf (javadoc 0 [.doc text])).toList ++ [])).dropWhile
        (· = .char ' ')) ≠
        some [.char '\n'] →
      ¬ (javadoc 0 [.doc text] = [] ∨ IsComment (javadoc 0 [.doc text])) := by
    rintro text hne hbroken (hnil | hcomment)
    · exact hne hnil
    · exact hbroken (hcomment [])
  exact ⟨hbroken _ (by decide) (by decide), hbroken _ (by decide) (by decide)⟩

end SchemaBeans.Java
