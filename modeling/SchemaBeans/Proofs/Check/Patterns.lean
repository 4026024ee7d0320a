import SchemaBeans.Check
import SchemaBeans.Proofs.Pattern.Ends
import SchemaBeans.Proofs.Pattern.Grammar

/-! # Patterns as matches of a whole text

A check puts the text of the pattern between parentheses and anchors. If the pattern is an
expression by itself, what comes out is that expression, anchored at both ends. If it is none, a
parenthesis that closes without being opened can still make an expression of the two together. -/
namespace SchemaBeans.Check

open Pattern

variable {p : String} {e : Expression}

theorem wholeText_eq (p : String) :
    wholeText p = '^' :: '(' :: '?' :: ':' :: (p.toList ++ closing) := by
  simp [wholeText, closing]

theorem groupsOf_wholeText (p : String) : groupsOf (wholeText p) = groupsOf p.toList := by
  have hopening (fuel : Nat) (cs : List Char) :
      groupsIn (fuel + 3) ('^' :: '(' :: '?' :: ':' :: cs) = groupsIn fuel cs := rfl
  have hfuel : 4 * (wholeText p).length + 4 = 4 * p.toList.length + 25 + 3 := by
    simp only [wholeText_eq, closing, List.length_cons, List.length_append, List.length_nil]
    omega
  rw [groupsOf, hfuel, wholeText_eq, hopening]
  refine groupsIn_closing (by omega) ?_
  simp only [closing, List.length_append, List.length_cons, List.length_nil]
  omega

theorem reads_wholeText {groups : List (Option String)} {opened : Nat}
    (h : Reads groups .alternatives ⟨p.toList, 0⟩ e ⟨[], opened⟩) :
    Reads groups .alternatives ⟨wholeText p, 0⟩ e.anchored ⟨[], opened⟩ := by
  rw [wholeText_eq]
  have hstart : Reads groups .counted
    ⟨'^' :: '(' :: '?' :: ':' :: (p.toList ++ closing), 0⟩ .textStart
      ⟨'(' :: '?' :: ':' :: (p.toList ++ closing), 0⟩ :=
    .single rfl rfl
  have hpattern : Reads groups .counted ⟨'(' :: '?' :: ':' :: (p.toList ++ closing), 0⟩ e
      ⟨['$'], opened⟩ :=
    .enclosed rfl (h.behind ['$']) rfl
  have hend : Reads groups .counted ⟨['$'], opened⟩ .textEnd ⟨[], opened⟩ := .single rfl rfl
  have hrest : Reads groups .sequence ⟨[], opened⟩ .empty ⟨[], opened⟩ := .stop (.inl rfl)
  refine .last (.next ?_ hstart (.next ?_ hpattern (.next ?_ hend hrest))) nofun
  all_goals simp [Stops]

theorem ofText?_wholeText (h : Expression.ofText? p.toList = some e) :
    Expression.ofText? (wholeText p) = some e.anchored := by
  obtain ⟨hnames, opened, hreads⟩ := Expression.ofText?_eq_some.mp h
  rw [Expression.ofText?_eq_some, groupsOf_wholeText]
  exact ⟨hnames, opened, reads_wholeText hreads⟩

theorem not_unopened (h : Expression.ofText? p.toList = some e) : ¬Unopened p.toList := by
  obtain ⟨-, opened, hreads⟩ := Expression.ofText?_eq_some.mp h
  rw [Unopened, hreads.passes.even 0]
  simp [unopenedFrom]

theorem reads_pattern_of_wholeText {groups : List (Option String)} {c' : Cursor}
    (h : Reads groups .sequence ⟨wholeText p, 0⟩ e c') :
    ∃ body after opened,
      Reads groups .alternatives ⟨p.toList ++ closing, 0⟩ body ⟨')' :: after, opened⟩ := by
  rw [wholeText_eq] at h
  cases h with
  | stop hstop => simp [Stops] at hstop
  | next _ hstart hrest =>
    cases hstart with
    | enclosed hopen => cases hopen
    | single hatom hdone =>
      cases hatom
      cases hdone
      cases hrest with
      | stop hstop => simp [Stops] at hstop
      | next _ hpattern _ =>
        cases hpattern with
        | single hatom => cases hatom
        | enclosed hopen hbody =>
          cases hopen
          exact ⟨_, _, _, hbody⟩

theorem exists_append_closing {cs after : List Char} (h : ')' :: after <:+ cs ++ closing) :
    ∃ front, ')' :: after = front ++ closing := by
  rcases List.suffix_or_suffix_of_suffix h (List.suffix_append cs closing) with h' | ⟨front, h'⟩
  · have hwhole : ')' :: after = closing := by
      simpa [closing, List.suffix_cons_iff] using h'
    exact ⟨[], hwhole⟩
  · exact ⟨front, h'.symm⟩

/-- If the pattern makes an expression only in its parentheses, one of its own closes them too
early. -/
theorem exists_or_unopened (h : Expression.ofText? (wholeText p) = some e) :
    (∃ e', Expression.ofText? p.toList = some e') ∨ Unopened p.toList := by
  obtain ⟨hnames, opened, hreads⟩ := Expression.ofText?_eq_some.mp h
  rw [groupsOf_wholeText] at hnames hreads
  obtain ⟨first, c', hsequence⟩ :
      ∃ first c', Reads (groupsOf p.toList) .sequence ⟨wholeText p, 0⟩ first c' := by
    cases hreads with
    | last hsequence => exact ⟨_, _, hsequence⟩
    | more hsequence => exact ⟨_, _, hsequence⟩
  obtain ⟨body, after, opened', hbody⟩ := reads_pattern_of_wholeText hsequence
  -- the first parenthesis that closes is the one behind the pattern, or one of the pattern
  obtain ⟨front, hfront⟩ := exists_append_closing hbody.passes.suffix
  have hpattern := hbody.before rfl hfront
  cases front with
  | nil => exact .inl ⟨body, Expression.ofText?_eq_some.mpr ⟨hnames, opened', hpattern⟩⟩
  | cons d front =>
    obtain rfl : ')' = d := (List.cons.inj hfront).1
    refine .inr ?_
    rw [Unopened, hpattern.passes.even 0]
    rfl

theorem valueViolations_pattern (p path s : String) :
    valueViolations [.pattern p] path (some (.string s)) =
      match Expression.ofText? (wholeText p) with
      | some e => if e.occursIn s.toList then [] else [⟨path, "must match \"" ++ p ++ "\""⟩]
      | none => [⟨path, "pattern \"" ++ p ++ "\" does not compile"⟩] := by
  have hbroken : broken? (some (.string s)) (.pattern p) = pattern? p (.string s) := rfl
  rw [valueViolations, List.filterMap_cons, hbroken, pattern?]
  cases Expression.ofText? (wholeText p) with
  | none => rfl
  | some e => cases hmatch : e.occursIn s.toList <;> simp [hmatch]

theorem must_match_ne (p : String) :
    "must match \"" ++ p ++ "\"" ≠ "pattern \"" ++ p ++ "\" does not compile" := by
  intro h
  have htext := congrArg (fun text : String => text.toList.head?) h
  simp at htext

/-- A check of a text against a pattern says what the pattern by itself says of the whole text,
unless the pattern closes a parenthesis that it does not open and makes an expression in
parentheses. -/
theorem pattern_by_itself_iff (p path s : String) :
    ((valueViolations [.pattern p] path (some (.string s)) = [] ↔
        ∃ e, Expression.ofText? p.toList = some e ∧ e.MatchesWhole s.toList) ∧
      (valueViolations [.pattern p] path (some (.string s)) =
          [⟨path, "pattern \"" ++ p ++ "\" does not compile"⟩] ↔
        Expression.ofText? p.toList = none)) ↔
      ¬Unopened p.toList ∨ Expression.ofText? (wholeText p) = none := by
  rw [valueViolations_pattern]
  cases hpattern : Expression.ofText? p.toList with
  | some e =>
    refine iff_of_true ?_ (.inl (not_unopened hpattern))
    rw [ofText?_wholeText hpattern]
    simp only [Option.some.injEq, exists_eq_left', ← e.occursIn_anchored]
    cases e.anchored.occursIn s.toList <;> simp [must_match_ne]
  | none =>
    cases hwhole : Expression.ofText? (wholeText p) with
    | none => simp
    | some e =>
      have hunopened : Unopened p.toList := by
        rcases exists_or_unopened hwhole with ⟨e', he'⟩ | hunopened
        · cases hpattern.symm.trans he'
        · exact hunopened
      simp only [hunopened, not_true_eq_false, reduceCtorEq, or_self, iff_false, iff_true]
      cases e.occursIn s.toList <;> simp [must_match_ne]

/-- The parentheses around this pattern make two of its own, and each half reads as a pattern. -/
theorem pattern_closes_early :
    Expression.ofText? "a)|(?:b".toList = none ∧
      valueViolations [.pattern "a)|(?:b"] "p" (some (.string "ax")) = [] := by
  decide +kernel

end SchemaBeans.Check
