import SchemaBeans.Proofs.Pattern.Classes

/-! # The grammar of patterns

What the reader makes of a pattern, stated as a relation without fuel: alternatives are sequences
with bars between them, and a sequence goes on up to a bar, a closing parenthesis or the end. The
reader answers only with what the relation allows, and with enough fuel it answers with all of
it. A parenthesis behind the text makes no difference to the relation, as long as it is left for
what follows. -/

namespace SchemaBeans.Pattern

variable {groups : List (Option String)} {c : Char} {cs rest more : List Char}
  {e : Expression}

def plainAtom? : Char → Option Atom
  | '^' => some ⟨.textStart, false⟩
  | '$' => some ⟨.textEnd, false⟩
  | '.' => some ⟨.oneOf anyButLineEnd, true⟩
  | '(' | ')' | '|' | '*' | '+' | '?' => none
  | c => some ⟨.char c, true⟩

def single? (groups : List (Option String)) : List Char → Option (Atom × List Char)
  | [] => none
  | '\\' :: rest => escape? groups rest
  | '[' :: rest => (bracketed? rest).map fun read => (⟨read.1, true⟩, read.2)
  | '\x7b' :: rest => if (braces? rest).isSome then none else some (⟨.char '\x7b', true⟩, rest)
  | c :: rest => (plainAtom? c).map fun atom => (atom, rest)

/-- What a parenthesis opens. -/
inductive Bracket where
  | plain
  | capture
  | look (ahead negated : Bool)

/-- The number of groups that are open behind the parenthesis. -/
def Bracket.opened : Bracket → Nat → Nat
  | capture, opened => opened + 1
  | _, opened => opened

/-- The atom that the parentheses and what they enclose make up. -/
def Bracket.atom (body : Expression) (opened : Nat) : Bracket → Atom
  | plain => ⟨body, true⟩
  | capture => ⟨.group (opened + 1) body, true⟩
  | look ahead negated => ⟨.look ahead negated body, ahead⟩

def openingBehind? : List Char → Option (Bracket × List Char)
  | '=' :: rest => some (.look false false, rest)
  | '!' :: rest => some (.look false true, rest)
  | rest => (groupName? rest).map fun read => (.capture, read.2)

def openingMarked? : List Char → Option (Bracket × List Char)
  | '=' :: rest => some (.look true false, rest)
  | '!' :: rest => some (.look true true, rest)
  | ':' :: rest => some (.plain, rest)
  | '<' :: rest => openingBehind? rest
  | _ => none

/-- Reads an opening parenthesis and what belongs to it. -/
def opening? : List Char → Option (Bracket × List Char)
  | '(' :: '?' :: rest => openingMarked? rest
  | '(' :: rest => some (.capture, rest)
  | _ => none

/-- Reads the count behind an atom, with the groups that stand inside of it. -/
def finish? (opened inside : Nat) (atom : Atom) (cs : List Char) :
    Option (Expression × List Char) :=
  match count? cs with
  | none => some (atom.expression, cs)
  | some (count, rest) =>
    if atom.countable = false then none
    else if count.max.any (· < count.min) then none
    else some (.loop atom.expression count.min count.max count.greedy (opened + 1) inside, rest)

def Stops (cs : List Char) : Prop := cs = [] ∨ cs.head? = some '|' ∨ cs.head? = some ')'

theorem atom?_single {fuel : Nat} (opened : Nat) (hstop : ¬Stops cs) (hopen : cs.head? ≠ some '(') :
    atom? groups (fuel + 1) ⟨cs, opened⟩ =
      (single? groups cs).map fun read => (read.1, ⟨read.2, opened⟩) := by
  rcases cs with _ | ⟨c, cs⟩
  · exact absurd (.inl rfl) hstop
  simp only [Stops, List.head?_cons, Option.some.injEq, not_or] at hstop
  have hbar := hstop.2.1
  have hclose := hstop.2.2
  have hparen : c ≠ '(' := by simpa using hopen
  by_cases hescape : c = '\\'
  · subst hescape
    simp only [atom?, single?]
    cases escape? groups cs <;> rfl
  by_cases hclass : c = '['
  · subst hclass
    simp only [atom?, single?]
    cases bracketed? cs <;> rfl
  by_cases hbrace : c = '\x7b'
  · subst hbrace
    simp only [atom?, single?]
    split <;> rfl
  by_cases hstart : c = '^'
  · subst hstart
    rfl
  by_cases hend : c = '$'
  · subst hend
    rfl
  by_cases hany : c = '.'
  · subst hany
    rfl
  by_cases hstar : c = '*'
  · subst hstar
    rfl
  by_cases hplus : c = '+'
  · subst hplus
    rfl
  by_cases hmark : c = '?'
  · subst hmark
    rfl
  · simp [atom?, single?, plainAtom?, *]

/-- What stands between the parentheses, with the text behind the closing one. -/
def enclosed? (groups : List (Option String)) (fuel opened : Nat) (bracket : Bracket)
    (cs : List Char) : Option (Atom × Cursor) :=
  (alternatives? groups fuel ⟨cs, bracket.opened opened⟩).bind fun read =>
    match read.2.rest with
    | ')' :: after => some (bracket.atom read.1 opened, { read.2 with rest := after })
    | _ => none

theorem atom?_enclosed (fuel opened : Nat) (cs : List Char) :
    atom? groups (fuel + 1) ⟨'(' :: cs, opened⟩ = (opening? ('(' :: cs)).bind fun read =>
      enclosed? groups fuel opened read.1 read.2 := by
  have hread (bracket : Bracket) (rest : List Char) :
      ((alternatives? groups fuel ⟨rest, bracket.opened opened⟩).bind fun read =>
        match read.2.rest with
        | ')' :: after => some (read.1, { read.2 with rest := after })
        | _ => none).bind (fun read => some (bracket.atom read.1 opened, read.2)) =
        enclosed? groups fuel opened bracket rest := by
    unfold enclosed?
    rw [Option.bind_assoc]
    congr 1
    funext read
    split <;> rfl
  rcases cs with _ | ⟨c, cs⟩
  · exact hread .capture []
  by_cases hmark : c = '?'
  · subst hmark
    rcases cs with _ | ⟨d, cs⟩
    · rfl
    by_cases hahead : d = '='
    · subst hahead
      exact hread (.look true false) cs
    by_cases hnot : d = '!'
    · subst hnot
      exact hread (.look true true) cs
    by_cases hplain : d = ':'
    · subst hplain
      exact hread .plain cs
    by_cases hangle : d = '<'
    · subst hangle
      rcases cs with _ | ⟨f, cs⟩
      · rfl
      by_cases hbehind : f = '='
      · subst hbehind
        exact hread (.look false false) cs
      by_cases hnot : f = '!'
      · subst hnot
        exact hread (.look false true) cs
      simp only [atom?, opening?, openingMarked?, openingBehind?, List.cons.injEq, hbehind, hnot,
        false_and, imp_self, implies_true]
      cases groupName? (f :: cs) with
      | none => rfl
      | some read => exact hread .capture read.2
    · simp [atom?, opening?, openingMarked?, hahead, hnot, hplain, hangle]
  · simp only [atom?, opening?, List.cons.injEq, hmark, false_and, imp_self, implies_true]
    exact hread .capture (c :: cs)

theorem counted?_succ (fuel : Nat) (c : Cursor) : counted? groups (fuel + 1) c =
    (atom? groups fuel c).bind fun read =>
      (finish? c.opened (read.2.opened - c.opened) read.1 read.2.rest).map fun done =>
        (done.1, { read.2 with rest := done.2 }) := by
  rw [counted?]
  congr 1
  funext read
  unfold finish?
  dsimp only
  cases count? read.2.rest with
  | none => rfl
  | some read =>
    dsimp only
    split
    · rfl
    split <;> rfl

theorem passes_plainAtom {atom : Atom} (h : plainAtom? c = some atom) (hescape : c ≠ '\\')
    (hclass : c ≠ '[') (cs : List Char) : Passes false (c :: cs) cs := by
  refine ⟨List.suffix_cons _ _, fun depth => ?_⟩
  have hopen : c ≠ '(' := by
    rintro rfl
    cases h
  have hclose : c ≠ ')' := by
    rintro rfl
    cases h
  simp [unopenedFrom, hescape, hclass, hopen, hclose]

theorem single?_spec {atom : Atom} (h : single? groups cs = some (atom, rest)) :
    Passes false cs rest ∧ rest.length < cs.length := by
  unfold single? at h
  split at h
  · cases h
  · have hescape : Escape false _ rest := escape_escape h
    exact ⟨hescape.passes, Nat.lt_succ_of_le hescape.suffix.length_le⟩
  · obtain ⟨⟨e, left⟩, hclass, h⟩ := Option.map_eq_some_iff.mp h
    cases h
    exact ⟨passes_bracketed hclass, Nat.lt_succ_of_le (local_bracketed.suffix hclass).length_le⟩
  · split at h
    · cases h
    · cases h
      exact ⟨.plain (by decide) (.refl _ _), Nat.lt_succ_self _⟩
  · rename_i c left hescape hclass _
    obtain ⟨atom', hatom, h⟩ := Option.map_eq_some_iff.mp h
    cases h
    exact ⟨passes_plainAtom hatom hescape hclass _, Nat.lt_succ_self _⟩

theorem local_single (groups : List (Option String)) : Local (single? groups) := by
  constructor
  · exact fun h => (single?_spec h).1.suffix
  · intro cs more atom rest
    rcases cs with _ | ⟨c, cs⟩
    · simp [single?, plainAtom?]
    by_cases hescape : c = '\\'
    · subst hescape
      rcases cs with _ | ⟨d, cs⟩
      · -- a backslash at the end would take the parenthesis
        have hclose : single? groups ('\\' :: ')' :: more) = some (⟨.char ')', true⟩, more) := rfl
        have hend : single? groups ['\\'] = none := rfl
        simp [hclose, hend, ne_append_close]
      · exact (steady_escape groups d).behind
    by_cases hclass : c = '['
    · subst hclass
      exact (local_bracketed.map fun e => (⟨e, true⟩ : Atom)).behind
    by_cases hbrace : c = '\x7b'
    · subst hbrace
      have hcount := braces?_append cs more
      simp only [List.cons_append, single?, hcount, Option.isSome_map]
      split <;> simp
    · simp only [List.cons_append, single?]
      cases plainAtom? c <;> simp

theorem opening?_spec {bracket : Bracket} (h : opening? cs = some (bracket, rest)) :
    ∃ marks, cs = '(' :: marks ∧ Passes false marks rest := by
  have hplain {c : Char} {cs : List Char} (h : Plain c) : Passes false (c :: cs) cs :=
    .plain h (.refl _ _)
  unfold opening? at h
  split at h
  · refine ⟨_, rfl, .plain (by decide) ?_⟩
    unfold openingMarked? at h
    split at h
    · cases h
      exact hplain (by decide)
    · cases h
      exact hplain (by decide)
    · cases h
      exact hplain (by decide)
    · refine .plain (by decide) ?_
      unfold openingBehind? at h
      split at h
      · cases h
        exact hplain (by decide)
      · cases h
        exact hplain (by decide)
      · obtain ⟨⟨name, left⟩, hname, h⟩ := Option.map_eq_some_iff.mp h
        cases h
        exact passes_groupName hname
    · cases h
  · cases h
    exact ⟨_, rfl, .refl _ _⟩
  · cases h

theorem steady_openingBehind : Steady openingBehind? := by
  intro cs more
  have hname := steady_groupName cs more
  rcases cs with _ | ⟨c, cs⟩
  · have hempty : groupName? [] = none := rfl
    rw [List.nil_append, hempty] at hname
    simp [openingBehind?, hname, hempty]
  by_cases hahead : c = '='
  · subst hahead
    rfl
  by_cases hnot : c = '!'
  · subst hnot
    rfl
  · rw [List.cons_append] at hname
    simp only [List.cons_append, openingBehind?, List.cons.injEq, hahead, hnot, false_and, imp_self,
      implies_true, hname]
    cases groupName? (c :: cs) <;> rfl

theorem steady_openingMarked : Steady openingMarked? := by
  intro cs more
  rcases cs with _ | ⟨c, cs⟩
  · rfl
  by_cases hahead : c = '='
  · subst hahead
    rfl
  by_cases hnot : c = '!'
  · subst hnot
    rfl
  by_cases hplain : c = ':'
  · subst hplain
    rfl
  by_cases hangle : c = '<'
  · subst hangle
    exact steady_openingBehind cs more
  · simp [openingMarked?, hahead, hnot, hplain, hangle]

theorem steady_opening : Steady opening? := by
  intro cs more
  rcases cs with _ | ⟨c, _ | ⟨d, cs⟩⟩
  · rfl
  · by_cases hopen : c = '('
    · subst hopen
      rfl
    · simp [opening?, hopen]
  by_cases hopen : c = '('
  · subst hopen
    by_cases hmark : d = '?'
    · subst hmark
      exact steady_openingMarked cs more
    · simp [opening?, hmark, shift]
  · simp [opening?, hopen]

theorem passes_finish {opened inside : Nat} {atom : Atom}
    (h : finish? opened inside atom cs = some (e, rest)) : Passes false cs rest := by
  unfold finish? at h
  split at h
  · cases h
    exact .refl _ _
  · rename_i hcount
    split at h
    · cases h
    split at h
    · cases h
    · cases h
      exact passes_count hcount

theorem steady_finish (opened inside : Nat) (atom : Atom) :
    Steady (finish? opened inside atom) := by
  intro cs more
  unfold finish?
  rw [steady_count]
  cases count? cs with
  | none => rfl
  | some read =>
    simp only [Option.map_some, shift]
    split
    · rfl
    split <;> rfl

end SchemaBeans.Pattern

namespace SchemaBeans.Pattern

/-- The parts of a pattern. -/
inductive Level where
  | alternatives
  | sequence
  | counted

/-- Between two cursors stands such a part, and this is the expression it spells. -/
inductive Reads (groups : List (Option String)) : Level → Cursor → Expression → Cursor → Prop where
  | last {c c' : Cursor} {e : Expression} :
    Reads groups .sequence c e c' → c'.rest.head? ≠ some '|' → Reads groups .alternatives c e c'
  | more {c c' : Cursor} {first second : Expression} {rest : List Char} {opened : Nat} :
    Reads groups .sequence c first ⟨'|' :: rest, opened⟩ →
    Reads groups .alternatives ⟨rest, opened⟩ second c' →
    Reads groups .alternatives c (.either first second) c'
  | stop {c : Cursor} : Stops c.rest → Reads groups .sequence c .empty c
  | next {c middle c' : Cursor} {first second : Expression} :
    ¬Stops c.rest → Reads groups .counted c first middle → Reads groups .sequence middle second c' →
    Reads groups .sequence c (.both first second) c'
  | single {cs middle rest : List Char} {opened : Nat} {atom : Atom} {e : Expression} :
    single? groups cs = some (atom, middle) → finish? opened 0 atom middle = some (e, rest) →
    Reads groups .counted ⟨cs, opened⟩ e ⟨rest, opened⟩
  | enclosed {cs inner after rest : List Char} {opened opened' : Nat} {bracket : Bracket}
      {body e : Expression} :
    opening? cs = some (bracket, inner) →
    Reads groups .alternatives ⟨inner, bracket.opened opened⟩ body ⟨')' :: after, opened'⟩ →
    finish? opened (opened' - opened) (bracket.atom body opened) after = some (e, rest) →
    Reads groups .counted ⟨cs, opened⟩ e ⟨rest, opened'⟩

variable {groups : List (Option String)} {level : Level} {c c' : Cursor} {e : Expression}
  {cs rest more : List Char} {fuel : Nat}

def read? (groups : List (Option String)) : Level → Nat → Cursor → Option (Expression × Cursor)
  | .alternatives => alternatives? groups
  | .sequence => sequence? groups
  | .counted => counted? groups

theorem sequence?_stop (h : Stops c.rest) : sequence? groups (fuel + 1) c = some (.empty, c) := by
  obtain ⟨cs, opened⟩ := c
  rcases h with rfl | h | h
  · rfl
  · obtain ⟨rest, rfl⟩ := List.head?_eq_some_iff.mp h
    rfl
  · obtain ⟨rest, rfl⟩ := List.head?_eq_some_iff.mp h
    rfl

theorem sequence?_next (h : ¬Stops c.rest) : sequence? groups (fuel + 1) c =
    (counted? groups fuel c).bind fun first =>
      (sequence? groups fuel first.2).map fun second => (.both first.1 second.1, second.2) := by
  rw [sequence?]
  split
  · rename_i hrest
    exact absurd (.inl hrest) h
  · rename_i hrest
    exact absurd (.inr (.inl (by rw [hrest]; rfl))) h
  · rename_i hrest
    exact absurd (.inr (.inr (by rw [hrest]; rfl))) h
  · congr 1
    funext first
    dsimp only
    cases sequence? groups fuel first.2 <;> rfl

theorem counted?_single (hstop : ¬Stops cs) (hopen : cs.head? ≠ some '(') (opened : Nat) :
    counted? groups (fuel + 2) ⟨cs, opened⟩ = (single? groups cs).bind fun read =>
      (finish? opened 0 read.1 read.2).map fun done => (done.1, ⟨done.2, opened⟩) := by
  rw [counted?_succ, atom?_single opened hstop hopen]
  cases single? groups cs with
  | none => rfl
  | some read => simp

theorem alternatives?_cases (h : alternatives? groups (fuel + 1) c = some (e, c')) :
    (sequence? groups fuel c = some (e, c') ∧ c'.rest.head? ≠ some '|') ∨
      ∃ first second rest opened, e = .either first second ∧
        sequence? groups fuel c = some (first, ⟨'|' :: rest, opened⟩) ∧
        alternatives? groups fuel ⟨rest, opened⟩ = some (second, c') := by
  rw [alternatives?] at h
  obtain ⟨⟨first, middle, opened⟩, hfirst, h⟩ := Option.bind_eq_some_iff.mp h
  dsimp only at h
  split at h
  · obtain ⟨⟨second, after⟩, hsecond, h⟩ := Option.bind_eq_some_iff.mp h
    cases h
    exact .inr ⟨first, second, _, opened, rfl, hfirst, hsecond⟩
  · rename_i hbar
    cases h
    refine .inl ⟨hfirst, fun hhead => ?_⟩
    obtain ⟨rest, hrest⟩ := List.head?_eq_some_iff.mp hhead
    exact hbar rest hrest

theorem enclosed?_eq_some {opened : Nat} {bracket : Bracket} {atom : Atom}
    (h : enclosed? groups fuel opened bracket cs = some (atom, c')) :
    ∃ body, alternatives? groups fuel ⟨cs, bracket.opened opened⟩ =
      some (body, ⟨')' :: c'.rest, c'.opened⟩) ∧ atom = bracket.atom body opened := by
  obtain ⟨⟨body, left, opened'⟩, hbody, h⟩ := Option.bind_eq_some_iff.mp h
  dsimp only at h
  split at h
  · cases h
    exact ⟨body, hbody, rfl⟩
  · cases h

theorem reads_of_read (hread : read? groups level fuel c = some (e, c'))
    (hcounted : level = .counted → ¬Stops c.rest) : Reads groups level c e c' := by
  -- a part in parentheses goes down two steps at once, so the induction is over all smaller fuels
  induction fuel using Nat.strongRecOn generalizing level c e c' with
  | ind fuel ih =>
    cases level with
    | alternatives =>
      rcases fuel with _ | fuel
      · cases hread
      rcases alternatives?_cases hread with
        ⟨hfirst, hbar⟩ | ⟨first, second, rest, opened, rfl, hfirst, hsecond⟩
      · exact .last (ih fuel (Nat.lt_succ_self _) hfirst nofun) hbar
      · exact .more (ih fuel (Nat.lt_succ_self _) hfirst nofun)
          (ih fuel (Nat.lt_succ_self _) hsecond nofun)
    | sequence =>
      rcases fuel with _ | fuel
      · cases hread
      by_cases hstop : Stops c.rest
      · cases (sequence?_stop hstop).symm.trans hread
        exact .stop hstop
      · simp only [read?, sequence?_next hstop] at hread
        obtain ⟨⟨first, middle⟩, hfirst, hread⟩ := Option.bind_eq_some_iff.mp hread
        obtain ⟨⟨second, after⟩, hsecond, hread⟩ := Option.map_eq_some_iff.mp hread
        cases hread
        exact .next hstop (ih fuel (Nat.lt_succ_self _) hfirst fun _ => hstop)
          (ih fuel (Nat.lt_succ_self _) hsecond nofun)
    | counted =>
      rcases fuel with _ | _ | fuel
      · cases hread
      · cases hread
      obtain ⟨cs, opened⟩ := c
      by_cases hopen : cs.head? = some '('
      · obtain ⟨cs, rfl⟩ := List.head?_eq_some_iff.mp hopen
        simp only [read?, counted?_succ, atom?_enclosed] at hread
        obtain ⟨⟨atom, inner⟩, hatom, hread⟩ := Option.bind_eq_some_iff.mp hread
        obtain ⟨⟨bracket, rest⟩, hbracket, hatom⟩ := Option.bind_eq_some_iff.mp hatom
        obtain ⟨body, hbody, rfl⟩ := enclosed?_eq_some hatom
        obtain ⟨⟨done, after⟩, hdone, hread⟩ := Option.map_eq_some_iff.mp hread
        cases hread
        exact .enclosed hbracket (ih fuel (by omega) hbody nofun) hdone
      · simp only [read?, counted?_single (hcounted rfl) hopen] at hread
        obtain ⟨⟨atom, middle⟩, hatom, hread⟩ := Option.bind_eq_some_iff.mp hread
        obtain ⟨⟨done, after⟩, hdone, hread⟩ := Option.map_eq_some_iff.mp hread
        cases hread
        exact .single hatom hdone

theorem Passes.enclosed {inside inner after : List Char} (hinside : Passes false inside inner)
    (hinner : Passes false inner (')' :: after)) : Passes false ('(' :: inside) after := by
  have hpasses := hinside.trans hinner
  refine ⟨(List.suffix_cons _ _).trans (hpasses.suffix.trans (List.suffix_cons _ _)),
    fun depth => ?_⟩
  calc unopenedFrom false false depth ('(' :: inside)
      = unopenedFrom false false (depth + 1) inside := rfl
    _ = unopenedFrom false false (depth + 1) (')' :: after) := hpasses.even _
    _ = unopenedFrom false false depth after := rfl

theorem Reads.passes (h : Reads groups level c e c') : Passes false c.rest c'.rest := by
  induction h with
  | last _ _ ih => exact ih
  | more _ _ ihfirst ihsecond => exact ihfirst.trans (.plain (by decide) ihsecond)
  | stop => exact .refl _ _
  | next _ _ _ ihfirst ihsecond => exact ihfirst.trans ihsecond
  | single hatom hdone => exact (single?_spec hatom).1.trans (passes_finish hdone)
  | enclosed hopen _ hdone ih =>
    obtain ⟨marks, rfl, hmarks⟩ := opening?_spec hopen
    exact (hmarks.enclosed ih).trans (passes_finish hdone)

theorem Reads.shorter (h : Reads groups .counted c e c') : c'.rest.length < c.rest.length := by
  cases h with
  | single hatom hdone =>
    exact Nat.lt_of_le_of_lt (passes_finish hdone).suffix.length_le (single?_spec hatom).2
  | enclosed hopen halternatives hdone =>
    obtain ⟨marks, rfl, hmarks⟩ := opening?_spec hopen
    have hinside := hmarks.suffix.length_le
    have hbody := halternatives.passes.suffix.length_le
    have hrest := (passes_finish hdone).suffix.length_le
    simp only [List.length_cons] at hbody ⊢
    omega

/-- The fuel that a part of so many characters takes. -/
def Level.enough : Level → Nat → Nat
  | alternatives, length => 4 * length + 2
  | sequence, length => 4 * length + 1
  | counted, length => 4 * length

theorem not_stops_of_single {read : Atom × List Char} (h : single? groups cs = some read) :
    ¬Stops cs ∧ cs.head? ≠ some '(' := by
  rcases cs with _ | ⟨c, cs⟩
  · cases h
  refine ⟨?_, ?_⟩
  · rintro (h' | h' | h')
    all_goals cases h'
    all_goals cases h
  · rintro h'
    cases h'
    cases h

theorem Reads.complete (h : Reads groups level c e c')
    (hfuel : level.enough (c.rest.length - c'.rest.length) ≤ fuel) :
    read? groups level fuel c = some (e, c') := by
  induction h generalizing fuel with
  | last hsequence hbar ih =>
    simp only [Level.enough] at hfuel ih
    obtain ⟨fuel, rfl⟩ : ∃ n, fuel = n + 1 := ⟨fuel - 1, by omega⟩
    have hread := ih (by omega : _ ≤ fuel)
    simp only [read?] at hread
    simp only [read?, alternatives?, hread, Option.bind_eq_bind, Option.bind_some]
    split
    · rename_i rest hrest
      exact absurd (congrArg List.head? hrest) hbar
    · rfl
  | more hsequence halternatives ihfirst ihsecond =>
    simp only [Level.enough] at hfuel ihfirst ihsecond
    have hfirst := hsequence.passes.suffix.length_le
    have hsecond := halternatives.passes.suffix.length_le
    simp only [List.length_cons] at hfirst hsecond ihfirst
    obtain ⟨fuel, rfl⟩ : ∃ n, fuel = n + 1 := ⟨fuel - 1, by omega⟩
    have hread := ihfirst (by omega : _ ≤ fuel)
    have hread' := ihsecond (by omega : _ ≤ fuel)
    simp only [read?] at hread hread'
    simp [read?, alternatives?, hread, hread']
  | stop hstop =>
    simp only [Level.enough] at hfuel
    obtain ⟨fuel, rfl⟩ : ∃ n, fuel = n + 1 := ⟨fuel - 1, by omega⟩
    exact sequence?_stop hstop
  | next hstop hcounted hsequence ihfirst ihsecond =>
    simp only [Level.enough] at hfuel ihfirst ihsecond
    -- the part takes a character, which pays for this step
    have hfirst := hcounted.shorter
    have hsecond := hsequence.passes.suffix.length_le
    obtain ⟨fuel, rfl⟩ : ∃ n, fuel = n + 1 := ⟨fuel - 1, by omega⟩
    have hread := ihfirst (by omega : _ ≤ fuel)
    have hread' := ihsecond (by omega : _ ≤ fuel)
    simp only [read?] at hread hread'
    simp [read?, sequence?_next hstop, hread, hread']
  | single hatom hdone =>
    have hshorter := (single?_spec hatom).2
    have hrest := (passes_finish hdone).suffix.length_le
    simp only [Level.enough] at hfuel
    obtain ⟨fuel, rfl⟩ : ∃ n, fuel = n + 2 := ⟨fuel - 2, by omega⟩
    obtain ⟨hstop, hopen⟩ := not_stops_of_single hatom
    simp [read?, counted?_single hstop hopen, hatom, hdone]
  | enclosed hopen halternatives hdone ih =>
    obtain ⟨marks, rfl, hmarks⟩ := opening?_spec hopen
    have hmarks := hmarks.suffix.length_le
    have hbody := halternatives.passes.suffix.length_le
    have hrest := (passes_finish hdone).suffix.length_le
    simp only [Level.enough, List.length_cons] at hfuel hbody ih
    obtain ⟨fuel, rfl⟩ : ∃ n, fuel = n + 2 := ⟨fuel - 2, by omega⟩
    have hread := ih (by omega : _ ≤ fuel)
    simp only [read?] at hread
    simp [read?, counted?_succ, atom?_enclosed, hopen, enclosed?, hread, hdone]

theorem stops_append : Stops (cs ++ ')' :: more) ↔ Stops cs := by
  cases cs <;> simp [Stops]

theorem head?_append_ne : (cs ++ ')' :: more).head? ≠ some '|' ↔ cs.head? ≠ some '|' := by
  cases cs <;> simp

theorem local_opening : Local opening? := by
  refine ⟨fun h => ?_, steady_opening.behind⟩
  obtain ⟨marks, rfl, hmarks⟩ := opening?_spec h
  exact hmarks.suffix.trans (List.suffix_cons _ _)

theorem local_finish (opened inside : Nat) (atom : Atom) : Local (finish? opened inside atom) :=
  ⟨fun h => (passes_finish h).suffix, (steady_finish opened inside atom).behind⟩

/-- What is read before a parenthesis is read before the end of the text too, and the other way
round. -/
theorem Reads.behind (h : Reads groups level c e c') (more : List Char) :
    Reads groups level ⟨c.rest ++ ')' :: more, c.opened⟩ e ⟨c'.rest ++ ')' :: more, c'.opened⟩ := by
  induction h with
  | last _ hbar ih => exact .last ih (head?_append_ne.mpr hbar)
  | more _ _ ihfirst ihsecond => exact .more ihfirst ihsecond
  | stop hstop => exact .stop (stops_append.mpr hstop)
  | next hstop _ _ ihfirst ihsecond => exact .next (mt stops_append.mp hstop) ihfirst ihsecond
  | single hatom hdone =>
    exact .single ((local_single groups).behind.mpr hatom) ((local_finish _ _ _).behind.mpr hdone)
  | enclosed hopen _ hdone ih =>
    exact .enclosed (local_opening.behind.mpr hopen) ih ((local_finish _ _ _).behind.mpr hdone)

theorem exists_append {part whole : List Char} (h : part <:+ whole) {rest : List Char}
    (hpart : part = rest ++ more) : ∃ front, whole = front ++ more := by
  obtain ⟨gone, rfl⟩ := h
  exact ⟨gone ++ rest, by rw [hpart, List.append_assoc]⟩

theorem Reads.before (h : Reads groups level c e c') (hcs : c.rest = cs ++ ')' :: more)
    (hrest : c'.rest = rest ++ ')' :: more) :
    Reads groups level ⟨cs, c.opened⟩ e ⟨rest, c'.opened⟩ := by
  -- what is left at the end ends with the appended text, so all that was left before does
  induction h generalizing cs rest with
  | last _ hbar ih =>
    refine .last (ih hcs hrest) ?_
    rw [hrest] at hbar
    exact head?_append_ne.mp hbar
  | @more _ _ _ _ left _ _ hsecond ihfirst ihsecond =>
    obtain ⟨front, hfront⟩ := exists_append hsecond.passes.suffix hrest
    have hbar : '|' :: left = ('|' :: front) ++ ')' :: more := congrArg ('|' :: ·) hfront
    exact .more (ihfirst hcs hbar) (ihsecond hfront hrest)
  | stop hstop =>
    obtain rfl := List.append_cancel_right (hcs.symm.trans hrest)
    rw [hcs, stops_append] at hstop
    exact .stop hstop
  | next hstop _ hsequence ihfirst ihsecond =>
    obtain ⟨front, hfront⟩ := exists_append hsequence.passes.suffix hrest
    rw [hcs, stops_append] at hstop
    exact .next hstop (ihfirst hcs hfront) (ihsecond hfront hrest)
  | single hatom hdone =>
    subst hcs hrest
    obtain ⟨front, rfl⟩ := exists_append (passes_finish hdone).suffix rfl
    exact .single ((local_single groups).behind.mp hatom) ((local_finish _ _ _).behind.mp hdone)
  | enclosed hopen halternatives hdone ih =>
    subst hcs hrest
    obtain ⟨front, rfl⟩ := exists_append (passes_finish hdone).suffix rfl
    have hclose : ')' :: (front ++ ')' :: more) = (')' :: front) ++ ')' :: more := rfl
    obtain ⟨inside, rfl⟩ := exists_append halternatives.passes.suffix hclose
    exact .enclosed (local_opening.behind.mp hopen) (ih rfl hclose)
      ((local_finish _ _ _).behind.mp hdone)

def groupsOf (text : List Char) : List (Option String) := groupsIn (4 * text.length + 4) text

theorem alternatives?_iff (h : 4 * c.rest.length + 2 ≤ fuel) :
    alternatives? groups fuel c = some (e, c') ↔ Reads groups .alternatives c e c' := by
  change read? groups .alternatives fuel c = some (e, c') ↔ _
  refine ⟨fun hread => reads_of_read hread nofun, fun hreads => hreads.complete ?_⟩
  simp only [Level.enough]
  omega

theorem Expression.ofText?_eq_some {text : List Char} : Expression.ofText? text = some e ↔
    namesDiffer (groupsOf text) ∧
      ∃ opened, Reads (groupsOf text) .alternatives ⟨text, 0⟩ e ⟨[], opened⟩ := by
  have hread (c' : Cursor) : alternatives? (groupsOf text) (4 * text.length + 4) ⟨text, 0⟩ =
      some (e, c') ↔ Reads (groupsOf text) .alternatives ⟨text, 0⟩ e c' :=
    alternatives?_iff (by dsimp only; omega)
  unfold Expression.ofText?
  have hgroups : groupsIn (4 * text.length + 4) text = groupsOf text := rfl
  dsimp only
  rw [hgroups]
  simp only [← hread]
  split
  · rename_i hnames
    simp only [hnames, true_and]
    split
    · rename_i e' opened halternatives
      simp [halternatives]
    · rename_i hnone
      exact iff_of_false nofun fun h => hnone e h.choose h.choose_spec
  · rename_i hnames
    simp [hnames]

end SchemaBeans.Pattern
