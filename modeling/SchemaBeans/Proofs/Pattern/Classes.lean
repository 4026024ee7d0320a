import SchemaBeans.Proofs.Pattern.Readers

/-! # Classes in brackets

A class in brackets may swallow the parenthesis behind a pattern, for its members go on up to the
closing bracket. If it does not, it is read in the same way with the parenthesis and without it. -/
namespace SchemaBeans.Pattern

variable {α β : Type} {cs rest more : List Char}

/-- What is read off the front does not depend on a parenthesis behind what is left. -/
structure Local (f : List Char → Option (α × List Char)) : Prop where
  suffix : ∀ {cs a rest}, f cs = some (a, rest) → rest <:+ cs
  behind : ∀ {cs more a rest},
    f (cs ++ ')' :: more) = some (a, rest ++ ')' :: more) ↔ f cs = some (a, rest)

theorem Steady.behind {f : List Char → Option (α × List Char)} (h : Steady f) {a : α} :
    f (cs ++ ')' :: more) = some (a, rest ++ ')' :: more) ↔ f cs = some (a, rest) := by
  rw [h]
  cases f cs with
  | none => simp
  | some read =>
    obtain ⟨b, left⟩ := read
    simp [shift]

theorem Local.bind {f : List Char → Option (α × List Char)}
    {g : α → List Char → Option (β × List Char)} (hf : Local f) (hg : ∀ a, Local (g a)) :
    Local fun cs => (f cs).bind fun read => g read.1 read.2 := by
  constructor
  · intro cs b rest h
    obtain ⟨⟨a, middle⟩, ha, hb⟩ := Option.bind_eq_some_iff.mp h
    exact ((hg a).suffix hb).trans (hf.suffix ha)
  · intro cs more b rest
    simp only [Option.bind_eq_some_iff]
    constructor
    · rintro ⟨⟨a, middle⟩, ha, hb⟩
      obtain ⟨gone, hgone⟩ := (hg a).suffix hb
      dsimp only at hgone
      obtain rfl : gone ++ rest ++ ')' :: more = middle := by rw [← hgone, List.append_assoc]
      exact ⟨(a, gone ++ rest), hf.behind.mp ha, (hg a).behind.mp hb⟩
    · rintro ⟨⟨a, middle⟩, ha, hb⟩
      exact ⟨(a, middle ++ ')' :: more), hf.behind.mpr ha, (hg a).behind.mpr hb⟩

theorem Local.map {f : List Char → Option (α × List Char)} (hf : Local f) (g : α → β) :
    Local fun cs => (f cs).map fun read => (g read.1, read.2) := by
  constructor
  · intro cs b rest h
    obtain ⟨⟨a, left⟩, ha, hb⟩ := Option.map_eq_some_iff.mp h
    cases hb
    exact hf.suffix ha
  · intro cs more b rest
    simp only [Option.map_eq_some_iff, Prod.exists, Prod.mk.injEq, exists_eq_right_right, hf.behind]

theorem ne_append_close (rest more : List Char) : more ≠ rest ++ ')' :: more := by
  intro h
  have hlength := congrArg List.length h
  simp only [List.length_append, List.length_cons] at hlength
  omega

theorem classAtom?_cases {atom : ClassAtom} (h : classAtom? cs = some (atom, rest)) :
    (∃ after, cs = '\\' :: after ∧ Escape true after rest) ∨ ∃ c, c ≠ '\\' ∧ cs = c :: rest := by
  unfold classAtom? at h
  split at h
  · cases h
  · cases h
    exact .inl ⟨_, rfl, .taken _ (.refl _ _)⟩
  · refine .inl ⟨_, rfl, ?_⟩
    split at h
    · cases h
      exact .taken _ (.refl _ _)
    · obtain ⟨⟨code, left⟩, hcode, h⟩ := Option.map_eq_some_iff.mp h
      cases h
      exact escape_charEscape hcode
  · cases h
  · rename_i c left hedge hescape hlast
    cases h
    refine .inr ⟨c, ?_, rfl⟩
    rintro rfl
    cases rest with
    | nil => exact hlast rfl rfl
    | cons d rest => exact hescape d rest rfl rfl

theorem steady_classEscape (c : Char) : Steady fun cs => classAtom? ('\\' :: c :: cs) := by
  intro cs more
  by_cases hedge : c = 'b'
  · subst hedge
    rfl
  · have hcode := steady_charEscape true c cs more
    simp only [classAtom?, hcode]
    cases classEscape? c with
    | some spans => rfl
    | none => cases charEscape true (c :: cs) <;> rfl

theorem local_classAtom : Local classAtom? := by
  constructor
  · intro cs atom rest h
    rcases classAtom?_cases h with ⟨_, rfl, hescape⟩ | ⟨c, -, rfl⟩
    · exact hescape.passes.suffix
    · exact List.suffix_cons _ _
  · intro cs more atom rest
    rcases cs with _ | ⟨c, cs⟩
    · simp [classAtom?, ne_append_close]
    by_cases hescape : c = '\\'
    · subst hescape
      rcases cs with _ | ⟨d, cs⟩
      · -- a backslash at the end would take the parenthesis
        have hclose : classAtom? ('\\' :: ')' :: more) = some (.code 0x29, more) := rfl
        have hend : classAtom? ['\\'] = none := rfl
        simp [hclose, hend, ne_append_close]
      · exact (steady_classEscape d).behind
    · simp [classAtom?, hescape]

/-- What two atoms with a hyphen between them stand for. -/
def ranged? : ClassAtom → ClassAtom → Option (List (List CharRange))
  | .code low, .code high => if high < low then none else some [[⟨low, high, false⟩]]
  | first, second => some (first.alternatives ++ [point '-'.toNat] ++ second.alternatives)

/-- What follows the first atom of a member, and whether the class ends with it. -/
def afterAtom? (done : List (List CharRange)) (first : ClassAtom) :
    List Char → Option ((Bool × List (List CharRange)) × List Char)
  | '-' :: ']' :: rest => some ((true, done ++ first.alternatives ++ [point '-'.toNat]), rest)
  | '-' :: after =>
    (classAtom? after).bind fun read =>
      (ranged? first read.1).map fun new => ((false, done ++ new), read.2)
  | rest => some ((false, done ++ first.alternatives), rest)

/-- Reads one member of a class or its end. -/
def classStep? (done : List (List CharRange)) :
    List Char → Option ((Bool × List (List CharRange)) × List Char)
  | ']' :: rest => some ((true, done), rest)
  | cs => (classAtom? cs).bind fun read => afterAtom? done read.1 read.2

theorem afterAtom?_hyphen {done : List (List CharRange)} {first : ClassAtom}
    (h : cs.head? ≠ some ']') :
    afterAtom? done first ('-' :: cs) = (classAtom? cs).bind fun read =>
      (ranged? first read.1).map fun new => ((false, done ++ new), read.2) := by
  rcases cs with _ | ⟨c, cs⟩
  · rfl
  · have hclose : c ≠ ']' := by simpa using h
    simp [afterAtom?, hclose]

theorem afterAtom?_other {done : List (List CharRange)} {first : ClassAtom}
    (h : cs.head? ≠ some '-') :
    afterAtom? done first cs = some ((false, done ++ first.alternatives), cs) := by
  rcases cs with _ | ⟨c, cs⟩
  · rfl
  · have hhyphen : c ≠ '-' := by simpa using h
    simp [afterAtom?, hhyphen]

theorem classMembers?_succ (fuel : Nat) (done : List (List CharRange)) (cs : List Char) :
    classMembers? (fuel + 1) done cs = (classStep? done cs).bind fun read =>
      if read.1.1 then some (read.1.2, read.2) else classMembers? fuel read.1.2 read.2 := by
  rcases cs with _ | ⟨c, cs⟩
  · rfl
  by_cases hclose : c = ']'
  · subst hclose
    rfl
  have hmember : ∀ rest, c :: cs = ']' :: rest → False := by
    simp [hclose]
  rw [classMembers?.eq_4 _ _ _ (List.cons_ne_nil _ _) hmember, classStep?.eq_2 _ _ hmember]
  rcases classAtom? (c :: cs) with _ | ⟨first, rest⟩
  · rfl
  simp only [Option.bind_eq_bind, Option.bind_some]
  rcases rest with _ | ⟨d, rest⟩
  · rfl
  by_cases hhyphen : d = '-'
  · subst hhyphen
    by_cases hlast : rest.head? = some ']'
    · obtain ⟨rest, rfl⟩ := List.head?_eq_some_iff.mp hlast
      rfl
    · have hranged : ∀ after, rest = ']' :: after → False := by
        rintro after rfl
        exact hlast rfl
      rw [afterAtom?_hyphen hlast]
      simp only
      rcases classAtom? rest with _ | ⟨second, rest⟩
      · rfl
      · cases first <;> cases second <;> simp only [ranged?, Option.bind_some, Option.map_some] <;>
          try rfl
        split <;> rfl
  · rw [afterAtom?_other (by simpa using hhyphen)]
    simp [hhyphen]

theorem local_afterAtom (done : List (List CharRange)) (first : ClassAtom) :
    Local (afterAtom? done first) := by
  have hranged (a : ClassAtom) : Local fun cs : List Char =>
      (ranged? first a).map fun new => ((false, done ++ new), cs) := by
    constructor
    · intro cs read rest h
      obtain ⟨new, -, h⟩ := Option.map_eq_some_iff.mp h
      cases h
      exact List.suffix_rfl
    · intro cs more read rest
      cases ranged? first a <;> simp
  constructor
  · intro cs read rest h
    by_cases hhyphen : cs.head? = some '-'
    · obtain ⟨cs, rfl⟩ := List.head?_eq_some_iff.mp hhyphen
      by_cases hlast : cs.head? = some ']'
      · obtain ⟨cs, rfl⟩ := List.head?_eq_some_iff.mp hlast
        cases h
        exact (List.suffix_cons _ _).trans (List.suffix_cons _ _)
      · rw [afterAtom?_hyphen hlast] at h
        exact ((local_classAtom.bind hranged).suffix h).trans (List.suffix_cons _ _)
    · rw [afterAtom?_other hhyphen] at h
      cases h
      exact List.suffix_rfl
  · intro cs more read rest
    rcases cs with _ | ⟨c, cs⟩
    · simp [afterAtom?]
    by_cases hhyphen : c = '-'
    · subst hhyphen
      rcases cs with _ | ⟨d, cs⟩
      · -- and so would a hyphen
        have hclose : afterAtom? done first ('-' :: ')' :: more) =
            (ranged? first (.code 0x29)).map fun new => ((false, done ++ new), more) := rfl
        have hend : afterAtom? done first ['-'] = none := rfl
        simp [hclose, hend, ne_append_close]
      by_cases hlast : d = ']'
      · subst hlast
        simp [afterAtom?]
      · rw [List.cons_append, afterAtom?_hyphen (by simpa using hlast),
          afterAtom?_hyphen (by simpa using hlast)]
        exact (local_classAtom.bind hranged).behind
    · rw [afterAtom?_other (by simpa using hhyphen), afterAtom?_other (by simpa using hhyphen)]
      simp only [Option.some.injEq, Prod.mk.injEq, List.append_left_inj]

theorem classStep?_member {done : List (List CharRange)} (h : cs.head? ≠ some ']') :
    classStep? done cs = (classAtom? cs).bind fun read => afterAtom? done read.1 read.2 := by
  rcases cs with _ | ⟨c, cs⟩
  · rfl
  · have hclose : c ≠ ']' := by simpa using h
    simp [classStep?, hclose]

theorem local_classStep (done : List (List CharRange)) : Local (classStep? done) := by
  have hmember := local_classAtom.bind (local_afterAtom done)
  constructor
  · intro cs read rest h
    by_cases hclose : cs.head? = some ']'
    · obtain ⟨cs, rfl⟩ := List.head?_eq_some_iff.mp hclose
      cases h
      exact List.suffix_cons _ _
    · rw [classStep?_member hclose] at h
      exact hmember.suffix h
  · intro cs more read rest
    by_cases hclose : cs.head? = some ']'
    · obtain ⟨cs, rfl⟩ := List.head?_eq_some_iff.mp hclose
      simp [classStep?]
    · have hbehind : (cs ++ ')' :: more).head? ≠ some ']' := by
        cases cs <;> simp_all
      rw [classStep?_member hclose, classStep?_member hbehind]
      exact hmember.behind

theorem passes_classAtom {atom : ClassAtom} (h : classAtom? cs = some (atom, rest))
    (hclose : cs.head? ≠ some ']') : Passes true cs rest := by
  rcases classAtom?_cases h with ⟨_, rfl, hescape⟩ | ⟨c, hescape, rfl⟩
  · exact hescape.passes
  · refine ⟨List.suffix_cons _ _, fun depth => ?_⟩
    have hc : c ≠ ']' := by simpa using hclose
    simp [unopenedFrom, hescape, hc]

theorem classAtom?_shorter {atom : ClassAtom} (h : classAtom? cs = some (atom, rest)) :
    rest.length < cs.length := by
  rcases classAtom?_cases h with ⟨after, rfl, hescape⟩ | ⟨c, -, rfl⟩
  · exact Nat.lt_succ_of_le hescape.suffix.length_le
  · simp

/-- A member leaves the class open, and the last one or the bracket alone closes it. -/
structure Member (last : Bool) (cs rest : List Char) : Prop where
  shorter : rest.length < cs.length
  even : ∀ depth, unopenedFrom false true depth cs = unopenedFrom false (!last) depth rest

theorem member_bracket (rest : List Char) : Member true (']' :: rest) rest :=
  ⟨Nat.lt_succ_self _, fun _ => rfl⟩

theorem Member.of_passes {last : Bool} {middle : List Char} (h : Passes true cs middle)
    (hmember : Member last middle rest) : Member last cs rest :=
  ⟨Nat.lt_of_lt_of_le hmember.shorter h.suffix.length_le,
    fun depth => (h.even depth).trans (hmember.even depth)⟩

theorem member_classStep {done alternatives : List (List CharRange)} {last : Bool}
    (h : classStep? done cs = some ((last, alternatives), rest)) : Member last cs rest := by
  by_cases hclose : cs.head? = some ']'
  · obtain ⟨cs, rfl⟩ := List.head?_eq_some_iff.mp hclose
    cases h
    exact member_bracket _
  rw [classStep?_member hclose] at h
  obtain ⟨⟨first, after⟩, hfirst, h⟩ := Option.bind_eq_some_iff.mp h
  dsimp only at h
  have hpasses := passes_classAtom hfirst hclose
  have hshorter := classAtom?_shorter hfirst
  by_cases hhyphen : after.head? = some '-'
  · obtain ⟨after, rfl⟩ := List.head?_eq_some_iff.mp hhyphen
    by_cases hlast : after.head? = some ']'
    · obtain ⟨after, rfl⟩ := List.head?_eq_some_iff.mp hlast
      cases h
      exact .of_passes hpasses (.of_passes (.plain (by decide) (.refl _ _)) (member_bracket _))
    · rw [afterAtom?_hyphen hlast] at h
      obtain ⟨⟨second, left⟩, hsecond, h⟩ := Option.bind_eq_some_iff.mp h
      obtain ⟨new, -, h⟩ := Option.map_eq_some_iff.mp h
      cases h
      refine .of_passes (hpasses.trans (.plain (by decide) (.refl _ _))) ?_
      exact ⟨classAtom?_shorter hsecond, (passes_classAtom hsecond hlast).even⟩
  · rw [afterAtom?_other hhyphen] at h
    cases h
    exact ⟨hshorter, hpasses.even⟩

theorem classMembers?_cases {fuel : Nat} {done all : List (List CharRange)}
    (h : classMembers? (fuel + 1) done cs = some (all, rest)) :
    classStep? done cs = some ((true, all), rest) ∨
      ∃ done' middle, classStep? done cs = some ((false, done'), middle) ∧
        classMembers? fuel done' middle = some (all, rest) := by
  rw [classMembers?_succ] at h
  obtain ⟨⟨⟨last, done'⟩, middle⟩, hstep, h⟩ := Option.bind_eq_some_iff.mp h
  cases last with
  | true =>
    cases h
    exact .inl hstep
  | false => exact .inr ⟨done', middle, hstep, h⟩

theorem classMembers?_enough {fuel enough : Nat} {done all : List (List CharRange)}
    (h : classMembers? fuel done cs = some (all, rest)) (henough : cs.length < enough) :
    classMembers? enough done cs = some (all, rest) := by
  induction fuel generalizing enough done cs with
  | zero => cases h
  | succ fuel ih =>
    obtain ⟨enough, rfl⟩ := Nat.exists_eq_add_one_of_ne_zero (Nat.ne_zero_of_lt henough)
    rw [classMembers?_succ]
    rcases classMembers?_cases h with hstep | ⟨done', middle, hstep, h⟩
    · rw [hstep]
      rfl
    · rw [hstep]
      have hshorter := (member_classStep hstep).shorter
      exact ih h (by dsimp only; omega)

theorem local_classMembers (fuel : Nat) (done : List (List CharRange)) :
    Local (classMembers? fuel done) := by
  induction fuel generalizing done with
  | zero => exact ⟨nofun, by simp [classMembers?]⟩
  | succ fuel ih =>
    have hstep := (local_classStep done).bind
      (g := fun read cs => if read.1 then some (read.2, cs) else classMembers? fuel read.2 cs)
      fun (last, done) => by
        cases last with
        | true => exact ⟨by simp, by simp⟩
        | false => exact ih done
    exact funext (classMembers?_succ fuel done) ▸ hstep

theorem even_classMembers {fuel : Nat} {done all : List (List CharRange)}
    (h : classMembers? fuel done cs = some (all, rest)) (depth : Nat) :
    unopenedFrom false true depth cs = unopenedFrom false false depth rest := by
  induction fuel generalizing done cs with
  | zero => cases h
  | succ fuel ih =>
    rcases classMembers?_cases h with hstep | ⟨done', middle, hstep, h⟩
    · exact (member_classStep hstep).even depth
    · exact ((member_classStep hstep).even depth).trans (ih h)

/-- The members of a class up to its closing bracket. -/
def members? (cs : List Char) : Option (List (List CharRange) × List Char) :=
  classMembers? (cs.length + 1) [] cs

theorem local_members : Local members? := by
  constructor
  · exact (local_classMembers _ []).suffix
  · intro cs more all rest
    have hlength : cs.length < (cs ++ ')' :: more).length + 1 := by
      simp only [List.length_append]
      omega
    refine (local_classMembers _ []).behind.trans ⟨fun h => ?_, fun h => ?_⟩
    · exact classMembers?_enough h (Nat.lt_succ_self _)
    · exact classMembers?_enough h hlength

theorem bracketed?_listed (h : cs.head? ≠ some '^') : bracketed? cs =
    (members? cs).map fun read => (.oneOf ⟨read.1, false⟩, read.2) := by
  rcases cs with _ | ⟨c, cs⟩
  · rfl
  · have hnegated : c ≠ '^' := by simpa using h
    simp [bracketed?, members?, hnegated]

theorem local_bracketed : Local bracketed? := by
  have hmembers (negated : Bool) := local_members.map fun all => Expression.oneOf ⟨all, negated⟩
  constructor
  · intro cs e rest h
    by_cases hnegated : cs.head? = some '^'
    · obtain ⟨cs, rfl⟩ := List.head?_eq_some_iff.mp hnegated
      exact ((hmembers true).suffix h).trans (List.suffix_cons _ _)
    · rw [bracketed?_listed hnegated] at h
      exact (hmembers false).suffix h
  · intro cs more e rest
    by_cases hnegated : cs.head? = some '^'
    · obtain ⟨cs, rfl⟩ := List.head?_eq_some_iff.mp hnegated
      exact (hmembers true).behind
    · have hbehind : (cs ++ ')' :: more).head? ≠ some '^' := by
        cases cs <;> simp_all
      rw [bracketed?_listed hnegated, bracketed?_listed hbehind]
      exact (hmembers false).behind

theorem passes_bracketed {e : Expression} (h : bracketed? cs = some (e, rest)) :
    Passes false ('[' :: cs) rest := by
  refine ⟨(local_bracketed.suffix h).trans (List.suffix_cons _ _), fun depth => ?_⟩
  by_cases hnegated : cs.head? = some '^'
  · obtain ⟨cs, rfl⟩ := List.head?_eq_some_iff.mp hnegated
    obtain ⟨⟨all, left⟩, hmembers, h⟩ := Option.map_eq_some_iff.mp h
    cases h
    exact even_classMembers hmembers depth
  · rw [bracketed?_listed hnegated] at h
    obtain ⟨⟨all, left⟩, hmembers, h⟩ := Option.map_eq_some_iff.mp h
    cases h
    exact even_classMembers hmembers depth

end SchemaBeans.Pattern
