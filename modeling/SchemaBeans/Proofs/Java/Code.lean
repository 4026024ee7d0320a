import Mathlib.Data.List.Forall2
import SchemaBeans.Java.SourceFile
import SchemaBeans.Proofs.Text.Cutting

/-! # The code of a file

The code of a file is what is left of its lines without imports, annotations and documentation.
Lines that hide nothing of the code can stand wherever a declaration has a heading: in front of
the same lines they leave the same code. -/
namespace SchemaBeans

namespace Text

/-- There is no line break in the text. -/
def Unbroken (text : String) : Prop := '\n' ∉ text.toList

instance (text : String) : Decidable (Unbroken text) := inferInstanceAs (Decidable (_ ∉ _))

@[simp] theorem unbroken_append {a b : String} : Unbroken (a ++ b) ↔ Unbroken a ∧ Unbroken b := by
  simp [Unbroken, not_or]

theorem Unbroken.ofList {cs : List Char} (h : '\n' ∉ cs) : Unbroken (String.ofList cs) := by
  rwa [Unbroken, String.toList_ofList]

theorem Unbroken.intercalate {sep : String} {texts : List String} (hsep : Unbroken sep)
    (h : ∀ text ∈ texts, Unbroken text) : Unbroken (sep.intercalate texts) := by
  induction texts with
  | nil => exact List.not_mem_nil
  | cons text rest ih =>
    have hrest := ih fun other hother => h other (List.mem_cons_of_mem _ hother)
    cases rest with
    | nil =>
      rw [String.intercalate_singleton]
      exact h text List.mem_cons_self
    | cons next others =>
      rw [String.intercalate_cons_cons, unbroken_append, unbroken_append]
      exact ⟨⟨h text List.mem_cons_self, hsep⟩, hrest⟩

theorem mem_replacePair {a b c : Char} {new cs : List Char} (h : c ∈ replacePair a b new cs) :
    c ∈ new ∨ c ∈ cs := by
  induction cs using replacePair.induct a b with
  | case1 x y rest hpair ih =>
    rw [replacePair, if_pos hpair, List.mem_append] at h
    rcases h with h | h
    · exact .inl h
    · exact (ih h).imp_right fun hc => by simp [hc]
  | case2 x y rest hpair ih =>
    rw [replacePair, if_neg hpair, List.mem_cons] at h
    rcases h with rfl | h
    · simp
    · exact (ih h).imp_right (List.mem_cons_of_mem _)
  | case3 rest hshort =>
    rw [replacePair.eq_2 _ _ _ _ hshort] at h
    exact .inr h

/-- A line is a piece between line feeds, perhaps without a carriage return at its end. -/
theorem exists_piece_of_mem_lines {text l : List Char} (h : l ∈ lines text) :
    ∃ piece ∈ pieces '\n' text, l <+: piece := by
  have hinit : ∀ l ∈ (pieces '\n' text).dropLast.map fun piece =>
      (dropEnding? ['\r'] piece).getD piece, ∃ piece ∈ pieces '\n' text, l <+: piece := by
    intro l hl
    obtain ⟨piece, hpiece, rfl⟩ := List.mem_map.mp hl
    refine ⟨piece, List.dropLast_subset _ hpiece, ?_⟩
    unfold dropEnding?
    split
    · exact List.take_prefix _ _
    · exact List.prefix_refl _
  unfold lines at h
  dsimp only at h
  split at h
  · exact hinit l h
  · exact hinit l h
  · rename_i last _ hlast
    rcases List.mem_append.mp h with h | h
    · exact hinit l h
    · rw [List.mem_singleton.mp h]
      exact ⟨last, List.mem_of_getLast? hlast, List.prefix_refl _⟩

theorem not_mem_lines {text l : List Char} (h : l ∈ lines text) : '\n' ∉ l := by
  obtain ⟨piece, hpiece, hbegins⟩ := exists_piece_of_mem_lines h
  exact fun hmem => not_mem_of_mem_pieces hpiece (hbegins.subset hmem)

/-- The first character is directly followed by the second one somewhere in the text. -/
def hasPair (a b : Char) : List Char → Bool
  | x :: y :: rest => (x = a && y = b) || hasPair a b (y :: rest)
  | _ => false

theorem hasPair_cons {a b x : Char} (h : x ≠ a) (cs : List Char) :
    hasPair a b (x :: cs) = hasPair a b cs := by
  cases cs with
  | nil => rfl
  | cons y rest => simp [hasPair, h]

theorem hasPair_replacePair (cs : List Char) :
    hasPair '*' '/' (replacePair '*' '/' "*&#47;".toList cs) = false := by
  have hfirst : ∀ y rest, (replacePair '*' '/' "*&#47;".toList (y :: rest)).head? = some y ∨
      (replacePair '*' '/' "*&#47;".toList (y :: rest)).head? = some '*' := by
    intro y rest
    cases rest with
    | nil => exact .inl rfl
    | cons z rest =>
      rw [replacePair]
      split
      · exact .inr rfl
      · exact .inl rfl
  induction cs using replacePair.induct '*' '/' with
  | case1 x y rest hpair ih =>
    rw [replacePair, if_pos hpair]
    simpa [hasPair, hasPair_cons] using ih
  | case2 x y rest hpair ih =>
    rw [replacePair, if_neg hpair]
    cases hout : replacePair '*' '/' "*&#47;".toList (y :: rest) with
    | nil => rfl
    | cons z others =>
      rw [hout] at ih
      have hz : ¬ (x = '*' ∧ z = '/') := by
        rintro ⟨rfl, rfl⟩
        have hnext := hfirst y rest
        rw [hout] at hnext
        rcases hnext with hnext | hnext
        · cases hnext
          exact hpair ⟨rfl, rfl⟩
        · cases hnext
      simpa [hasPair, ih] using not_and.mp hz
  | case3 rest hshort =>
    cases rest with
    | nil => rfl
    | cons x others =>
      cases others with
      | nil => rfl
      | cons y others => exact absurd rfl (hshort x y others)

theorem trimStart_white {c : Char} (h : isWhite c) (n : Nat) (cs : List Char) :
    trimStart (List.replicate n c ++ cs) = trimStart cs := by
  unfold trimStart
  rw [List.dropWhile_append_of_pos]
  intro d hd
  rw [(List.mem_replicate.mp hd).2]
  exact h

theorem getLast?_trim {cs : List Char} {c : Char} (h : cs.getLast? = some c)
    (hc : isWhite c = false) :
    (trim cs).getLast? = some c := by
  obtain ⟨init, rfl⟩ := List.getLast?_eq_some_iff.mp h
  have hstart : ∃ kept, trimStart (init ++ [c]) = kept ++ [c] := by
    unfold trimStart
    rw [List.dropWhile_append]
    split
    · exact ⟨[], by simp [hc]⟩
    · exact ⟨_, rfl⟩
  obtain ⟨kept, hkept⟩ := hstart
  simp [trim, trimEnd, hkept, hc]

end Text

namespace Java

open Text (Unbroken)

def isImport (l : String) : Bool := "import ".toList.isPrefixOf l.toList

def annotates (l : String) : Bool := (Text.trimStart l.toList).head? = some '@'

def opensComment (l : String) : Bool := Text.trim l.toList = "/**".toList

def closesComment (l : String) : Bool := Text.hasPair '*' '/' l.toList

/-- Where a line of a file stands. -/
inductive Region where
  | code
  | imports
  | comment
  deriving DecidableEq, Repr

/-- The lines of code from a line on. -/
def codeFrom : Region → Lines → Lines
  | _, [] => []
  | .comment, l :: rest => codeFrom (if closesComment l then .code else .comment) rest
  | region, l :: rest =>
    if isImport l then codeFrom .imports rest
    else if region = .imports ∧ l = "" then codeFrom .code rest
    else if annotates l then codeFrom .code rest
    else if opensComment l then codeFrom .comment rest
    else l :: codeFrom .code rest

/-- The lines of code of a file: all but imports with the blank line behind them, annotations and
blocks of documentation. -/
def code (text : String) : Lines :=
  codeFrom .code ((Text.pieces '\n' text.toList).map String.ofList)

theorem line_toList (indent : Nat) {text : String} (h : text ≠ "") :
    (line indent text).toList = List.replicate (4 * indent) ' ' ++ text.toList := by
  have hblanks : ∀ n, ("".pushn ' ' n).toList = List.replicate n ' ' := by
    intro n
    rw [String.pushn_eq_repeat_push]
    induction n with
    | zero => rfl
    | succ n ih => rw [Nat.repeat, String.toList_push, ih, List.replicate_succ']
  simp [line, h, hblanks]

theorem line_zero (text : String) : line 0 text = text := by
  unfold line
  split
  · rename_i hempty
    exact (String.isEmpty_iff.mp hempty).symm
  · exact String.empty_append

theorem textOf_cons (l : String) (rest : Lines) :
    textOf (l :: rest) = l ++ "\n" ++ textOf rest := by
  unfold textOf
  cases rest with
  | nil => simp
  | cons next others => simp [String.intercalate_cons_cons]

theorem lines_textOf {lines : Lines} (h : ∀ l ∈ lines, Unbroken l) :
    (Text.pieces '\n' (textOf lines).toList).map String.ofList = lines ++ [""] := by
  induction lines with
  | nil => rfl
  | cons l rest ih =>
    have hchars : (textOf (l :: rest)).toList = l.toList ++ '\n' :: (textOf rest).toList := by
      simp [textOf_cons]
    rw [hchars, Text.pieces_append, Text.pieces_of_not_mem (h l List.mem_cons_self),
      List.map_append,
      ih fun other hother => h other (List.mem_cons_of_mem _ hother)]
    simp

variable {indent : Nat} {text : String}

theorem unbroken_line : Unbroken (line indent text) ↔ Unbroken text := by
  by_cases hempty : text = ""
  · simp [hempty, line]
  · simp [Unbroken, line_toList indent hempty, List.mem_replicate]

/-- The text of a line of code: one line, with the end of a statement, of an enum constant or of the
line that opens or closes a block. -/
structure Statement (text : String) : Prop where
  unbroken : Unbroken text
  ends : ∃ c ∈ ['\x7b', '\x7d', ';', ','], text.toList.getLast? = some c

theorem statement_iff : Statement text ↔ Unbroken text ∧
    text.toList.getLast?.any (['\x7b', '\x7d', ';', ','].contains ·) = true := by
  simp only [Option.any_eq_true, List.contains_iff_mem]
  constructor
  · rintro ⟨hunbroken, c, hc, hlast⟩
    exact ⟨hunbroken, c, hlast, hc⟩
  · rintro ⟨hunbroken, c, hlast, hc⟩
    exact ⟨hunbroken, c, hc, hlast⟩

instance (text : String) : Decidable (Statement text) := decidable_of_iff _ statement_iff.symm

theorem Statement.append {before : String} (hbefore : Unbroken before) (h : Statement text) :
    Statement (before ++ text) := by
  refine ⟨Text.unbroken_append.mpr ⟨hbefore, h.unbroken⟩, ?_⟩
  obtain ⟨c, hc, hlast⟩ := h.ends
  exact ⟨c, hc, by simp [hlast]⟩

/-- A line that is kept in the code, or left out of it as an annotation, whatever stands around
it. -/
structure IsCode (l : String) : Prop where
  unbroken : Unbroken l
  notImport : isImport l = false
  notComment : opensComment l = false

theorem isImport_eq_false {l : String} (h : l.toList.head? ≠ some 'i') : isImport l = false := by
  rw [isImport, Bool.eq_false_iff, ne_eq, List.isPrefixOf_iff_prefix]
  rintro ⟨rest, hrest⟩
  rw [← hrest] at h
  exact h rfl

theorem isImport_line (h : indent = 0 → text.toList.head? ≠ some 'i') :
    isImport (line indent text) = false := by
  refine isImport_eq_false ?_
  by_cases hempty : text = ""
  · simp [hempty, line]
  · rw [line_toList indent hempty]
    cases indent with
    | zero => exact h rfl
    | succ n => simp [Nat.mul_add, List.head?_append, List.head?_replicate]

theorem opensComment_eq_false {l : String} {c : Char} (hlast : l.toList.getLast? = some c)
    (hwhite : Text.isWhite c = false) (hc : c ≠ '*') : opensComment l = false := by
  have htrim := Text.getLast?_trim hlast hwhite
  rw [opensComment, decide_eq_false_iff_not]
  intro heq
  rw [heq] at htrim
  exact hc (Option.some.inj htrim).symm

theorem isCode_empty : IsCode "" := ⟨by decide, by decide, by decide⟩

theorem Statement.isCode (h : Statement text) (hfirst : indent = 0 → text.toList.head? ≠ some 'i') :
    IsCode (line indent text) := by
  obtain ⟨c, hc, hlast⟩ := h.ends
  have hne : text ≠ "" := by
    rintro rfl
    cases hlast
  constructor
  · exact unbroken_line.mpr h.unbroken
  · exact isImport_line hfirst
  · have hkind : Text.isWhite c = false ∧ c ≠ '*' := by
      simp only [List.mem_cons, List.not_mem_nil, or_false] at hc
      rcases hc with rfl | rfl | rfl | rfl <;> decide
    refine opensComment_eq_false (c := c) ?_ hkind.1 hkind.2
    rw [line_toList indent hne, List.getLast?_append, hlast]
    rfl

theorem IsCode.codeFrom_code {l : String} (h : IsCode l) (rest : Lines) :
    codeFrom .code (l :: rest) =
      if annotates l then codeFrom .code rest else l :: codeFrom .code rest := by
  simp [codeFrom, h.notImport, h.notComment]

/-- Lines that leave no code, whatever stands behind them. -/
structure Hidden (lines : Lines) : Prop where
  unbroken : ∀ l ∈ lines, Unbroken l
  skipped : ∀ rest, codeFrom .code (lines ++ rest) = codeFrom .code rest

namespace Hidden

theorem nil : Hidden [] := ⟨fun _ h => absurd h List.not_mem_nil, fun _ => rfl⟩

theorem append {a b : Lines} (ha : Hidden a) (hb : Hidden b) : Hidden (a ++ b) := by
  refine ⟨fun l hl => (List.mem_append.mp hl).elim (ha.unbroken l) (hb.unbroken l), fun rest => ?_⟩
  rw [List.append_assoc, ha.skipped, hb.skipped]

theorem of_forall {lines : Lines} (h : ∀ l ∈ lines, Hidden [l]) : Hidden lines := by
  induction lines with
  | nil => exact nil
  | cons l rest ih =>
    exact (h l List.mem_cons_self).append
      (ih fun other hother => h other (List.mem_cons_of_mem _ hother))

end Hidden

theorem isWhite_blank : Text.isWhite ' ' = true := by decide

theorem trim_line (indent : Nat) (text : String) :
    Text.trimStart (line indent text).toList = Text.trimStart text.toList := by
  by_cases hempty : text = ""
  · simp [hempty, line]
  · rw [line_toList indent hempty, Text.trimStart_white isWhite_blank]

theorem hidden_annotation (h : Unbroken text) : Hidden [line indent ("@" ++ text)] := by
  have hstart : Text.trimStart (line indent ("@" ++ text)).toList = '@' :: text.toList := by
    rw [trim_line, String.toList_append]
    rfl
  have hlines : Unbroken (line indent ("@" ++ text)) := by
    rw [unbroken_line, Text.unbroken_append]
    exact ⟨by decide, h⟩
  refine ⟨fun l hl => List.mem_singleton.mp hl ▸ hlines, fun rest => ?_⟩
  have hnotImport : isImport (line indent ("@" ++ text)) = false := isImport_line fun _ => by simp
  simp [codeFrom, hnotImport, annotates, hstart]

theorem hidden_comment {body : Lines} (hbody : ∀ l ∈ body, Unbroken l ∧ closesComment l = false)
    {last : String} (hlast : Unbroken last) (hcloses : closesComment last = true) :
    Hidden (line indent "/**" :: body ++ [last]) := by
  constructor
  · intro l hl
    simp only [List.cons_append, List.mem_cons, List.mem_append, List.not_mem_nil, or_false] at hl
    rcases hl with rfl | hl | rfl
    · exact unbroken_line.mpr (by decide)
    · exact (hbody l hl).1
    · exact hlast
  · intro rest
    have hinside : ∀ inner : Lines, (∀ l ∈ inner, closesComment l = false) →
        codeFrom .comment (inner ++ last :: rest) = codeFrom .code rest := by
      intro inner hinner
      induction inner with
      | nil => simp [codeFrom, hcloses]
      | cons l others ih =>
        rw [List.cons_append, codeFrom, hinner l List.mem_cons_self]
        exact ih fun other hother => hinner other (List.mem_cons_of_mem _ hother)
    have hnotImport : isImport (line indent "/**") = false := isImport_line fun _ => by decide
    have hnotAnnotates : annotates (line indent "/**") = false := by
      rw [annotates, trim_line]
      decide
    have hopens : opensComment (line indent "/**") = true := by
      rw [opensComment, Text.trim, trim_line]
      decide
    rw [List.append_assoc, List.cons_append, List.singleton_append, codeFrom]
    · simpa [hnotImport, hnotAnnotates, hopens] using hinside body fun l hl => (hbody l hl).2
    · simp

theorem hidden_imports {names : List String} (hne : names ≠ [])
    (h : ∀ name ∈ names, Unbroken name) :
    Hidden (names.map ("import " ++ · ++ ";") ++ [""]) := by
  have himport : ∀ name, isImport ("import " ++ name ++ ";") = true := by
    intro name
    rw [isImport, List.isPrefixOf_iff_prefix, String.toList_append, String.toList_append]
    exact ⟨_, (List.append_assoc _ _ _).symm⟩
  constructor
  · intro l hl
    rcases List.mem_append.mp hl with hl | hl
    · obtain ⟨name, hname, rfl⟩ := List.mem_map.mp hl
      rw [Text.unbroken_append, Text.unbroken_append]
      exact ⟨⟨by decide, h name hname⟩, by decide⟩
    · rw [List.mem_singleton.mp hl]
      decide
  · intro rest
    have hbehind : ∀ others : List String,
        codeFrom .imports (others.map ("import " ++ · ++ ";") ++ "" :: rest) =
          codeFrom .code rest := by
      intro others
      induction others with
      | nil =>
        have hblank : isImport "" = false := by decide
        simp [codeFrom, hblank]
      | cons name others ih => simpa [codeFrom, himport] using ih
    obtain ⟨name, others, rfl⟩ := List.exists_cons_of_ne_nil hne
    simpa [codeFrom, himport] using hbehind others

/-- The lines leave the same code in front of all lines that do. -/
structure Corresponds (a b : Lines) : Prop where
  left : ∀ l ∈ a, Unbroken l
  right : ∀ l ∈ b, Unbroken l
  same : ∀ rest other, codeFrom .code rest = codeFrom .code other →
    codeFrom .code (a ++ rest) = codeFrom .code (b ++ other)

namespace Corresponds

variable {a b c d : Lines}

theorem of_hidden (ha : Hidden a) (hb : Hidden b) : Corresponds a b := by
  refine ⟨ha.unbroken, hb.unbroken, fun rest other h => ?_⟩
  rw [ha.skipped, hb.skipped, h]

theorem nil : Corresponds [] [] := of_hidden .nil .nil

theorem append (hab : Corresponds a b) (hcd : Corresponds c d) :
    Corresponds (a ++ c) (b ++ d) := by
  refine ⟨fun l hl => (List.mem_append.mp hl).elim (hab.left l) (hcd.left l),
    fun l hl => (List.mem_append.mp hl).elim (hab.right l) (hcd.right l), fun rest other h => ?_⟩
  rw [List.append_assoc, List.append_assoc]
  exact hab.same _ _ (hcd.same _ _ h)

theorem of_code (h : ∀ l ∈ a, IsCode l) : Corresponds a a := by
  refine ⟨fun l hl => (h l hl).unbroken, fun l hl => (h l hl).unbroken, fun rest other hrest => ?_⟩
  induction a with
  | nil => exact hrest
  | cons l lines ih =>
    have hl := h l List.mem_cons_self
    have hlines := ih fun next hnext => h next (List.mem_cons_of_mem _ hnext)
    rw [List.cons_append, List.cons_append, hl.codeFrom_code, hl.codeFrom_code, hlines]

theorem flatten {xs ys : List Lines} (h : List.Forall₂ Corresponds xs ys) :
    Corresponds xs.flatten ys.flatten := by
  induction h with
  | nil => exact nil
  | cons hfirst _ ih => exact hfirst.append ih

theorem code_eq (h : Corresponds a b) : code (textOf a) = code (textOf b) := by
  rw [code, code, lines_textOf h.left, lines_textOf h.right]
  exact h.same _ _ rfl

end Corresponds

end Java

end SchemaBeans
