import Mathlib.Tactic.ByContra
import SchemaBeans.Pattern.Reader

/-! # Readers and what follows

A reader takes a part off the front of a text and hands on the rest. What it takes does not
depend on a closing parenthesis behind the text: a reader that leaves the parenthesis alone reads
the same without it, and one that gets along without it reads the same before it. -/
namespace SchemaBeans.Pattern

variable {α : Type} {cs rest more : List Char}

/-- The same part, with more text behind what is left. -/
def shift (more : List Char) (read : α × List Char) : α × List Char :=
  (read.1, read.2 ++ ')' :: more)

/-- A parenthesis behind the text makes no difference. -/
def Steady (f : List Char → Option (α × List Char)) : Prop :=
  ∀ cs more, f (cs ++ ')' :: more) = (f cs).map (shift more)

theorem takeWhile_append_close {ok : Char → Bool} (h : ok ')' = false) (cs more : List Char) :
    (cs ++ ')' :: more).takeWhile ok = cs.takeWhile ok := by
  induction cs with
  | nil => simp [h]
  | cons c cs ih => simp [List.takeWhile_cons, ih]

theorem dropWhile_append_close {ok : Char → Bool} (h : ok ')' = false) (cs more : List Char) :
    (cs ++ ')' :: more).dropWhile ok = cs.dropWhile ok ++ ')' :: more := by
  induction cs with
  | nil => simp [h]
  | cons c cs ih => by_cases hc : ok c <;> simp [ih, hc]

theorem steady_number : Steady number? := by
  intro cs more
  unfold number?
  rw [takeWhile_append_close rfl, dropWhile_append_close rfl]
  dsimp only
  split <;> rfl

theorem steady_hex (value n : Nat) : Steady (hex? value n) := by
  intro cs more
  induction n generalizing value cs with
  | zero => rfl
  | succ n ih =>
    cases cs with
    | nil => rfl
    | cons c cs =>
      simp only [List.cons_append, hex?]
      cases hexValue? c with
      | none => rfl
      | some d => exact ih _ _

theorem octal_append (value n : Nat) (cs more : List Char) :
    octal value n (cs ++ ')' :: more) = shift more (octal value n cs) := by
  induction n generalizing value cs with
  | zero => rfl
  | succ n ih =>
    cases cs with
    | nil => rfl
    | cons c cs =>
      simp only [List.cons_append, octal]
      split
      · split
        · exact ih _ _
        · rfl
      · rfl

theorem braces?_append (cs more : List Char) : braces? (cs ++ ')' :: more) =
    (braces? cs).map fun (min, max, rest) => (min, max, rest ++ ')' :: more) := by
  unfold braces?
  rw [steady_number]
  cases number? cs with
  | none => rfl
  | some read =>
    obtain ⟨min, rest⟩ := read
    simp only [Option.map_some, shift, Option.bind_eq_bind, Option.bind_some]
    rcases rest with _ | ⟨c, rest⟩
    · rfl
    by_cases hclose : c = '\x7d'
    · subst hclose
      rfl
    by_cases hcomma : c = ','
    · subst hcomma
      rcases rest with _ | ⟨d, rest⟩
      · rfl
      by_cases hclose : d = '\x7d'
      · subst hclose
        rfl
      have hnumber := steady_number (d :: rest) more
      rw [List.cons_append] at hnumber
      cases hread : number? (d :: rest) with
      | none => simp [hclose, hnumber, hread]
      | some read =>
        obtain ⟨max, rest⟩ := read
        rcases rest with _ | ⟨e, rest⟩
        · simp [hclose, hnumber, hread, shift]
        by_cases he : e = '\x7d'
        · simp [hclose, hnumber, hread, shift, he]
        · simp [hclose, hnumber, hread, shift, he]
    · simp [hclose, hcomma]

theorem bareCount?_append (cs more : List Char) : bareCount? (cs ++ ')' :: more) =
    (bareCount? cs).map fun (min, max, rest) => (min, max, rest ++ ')' :: more) := by
  unfold bareCount?
  rcases cs with _ | ⟨c, cs⟩
  · rfl
  by_cases hstar : c = '*'
  · subst hstar
    rfl
  by_cases hplus : c = '+'
  · subst hplus
    rfl
  by_cases hmark : c = '?'
  · subst hmark
    rfl
  by_cases hbrace : c = '\x7b'
  · subst hbrace
    exact braces?_append cs more
  · simp [hstar, hplus, hmark, hbrace]

theorem steady_count : Steady count? := by
  intro cs more
  unfold count?
  rw [bareCount?_append]
  cases bareCount? cs with
  | none => rfl
  | some read =>
    obtain ⟨min, max, rest⟩ := read
    rcases rest with _ | ⟨c, rest⟩
    · rfl
    by_cases hc : c = '?'
    · subst hc
      rfl
    · simp [shift, hc]

def isNamePart (c : Char) : Bool := Text.isWordChar c || c = '_' || c = '$'

theorem groupName?_eq (cs : List Char) : groupName? cs =
    match cs.takeWhile isNamePart, cs.dropWhile isNamePart with
    | c :: name, '>' :: rest => if c.isDigit then none else some (String.ofList (c :: name), rest)
    | _, _ => none := by
  unfold groupName?
  change (match cs.takeWhile isNamePart, cs.dropWhile isNamePart with
    | c :: _, '>' :: rest =>
      if c.isDigit then none else some (String.ofList (cs.takeWhile isNamePart), rest)
    | _, _ => none) = _
  split
  · rename_i hname _
    rw [hname]
  · rfl

theorem steady_groupName : Steady groupName? := by
  intro cs more
  have hclose : isNamePart ')' = false := by decide +kernel
  rw [groupName?_eq, groupName?_eq, takeWhile_append_close hclose, dropWhile_append_close hclose]
  generalize cs.takeWhile _ = name
  generalize cs.dropWhile _ = rest
  rcases name with _ | ⟨c, name⟩
  · rfl
  rcases rest with _ | ⟨d, rest⟩
  · rfl
  by_cases hd : d = '>'
  · subst hd
    simp only [List.cons_append]
    split <;> rfl
  · simp [hd]

theorem steady_unicode : Steady unicode? := by
  intro cs more
  unfold unicode?
  rw [steady_hex]
  cases hex? 0 4 cs with
  | none => rfl
  | some read =>
    obtain ⟨high, rest⟩ := read
    simp only [Option.map_some, shift]
    split
    · rcases rest with _ | ⟨c, _ | ⟨d, rest⟩⟩
      · rfl
      · by_cases hc : c = '\\'
        · subst hc
          rfl
        · simp [hc, shift]
      by_cases hc : c = '\\'
      · subst hc
        by_cases hd : d = 'u'
        · subst hd
          simp only [List.cons_append]
          rw [steady_hex]
          cases hex? 0 4 rest with
          | none => rfl
          | some read =>
            simp only [Option.map_some, shift]
            split <;> rfl
        · simp [hd, shift]
      · simp [hc, shift]
    · rfl

theorem steady_charEscape (inClass : Bool) (c : Char) :
    Steady fun cs => charEscape inClass (c :: cs) := by
  intro cs more
  by_cases hcontrol : c = 'c'
  · subst hcontrol
    rcases cs with _ | ⟨letter, cs⟩
    · cases inClass <;> rfl
    · simp only [List.cons_append, charEscape]
      split <;> rfl
  by_cases hx : c = 'x'
  · subst hx
    simp only [charEscape, steady_hex _ _ cs more]
    cases hex? 0 2 cs <;> rfl
  by_cases hu : c = 'u'
  · subst hu
    simp only [charEscape, steady_unicode cs more]
    cases unicode? cs <;> rfl
  · have hoctal := octal_append 0 3 (c :: cs) more
    rw [List.cons_append] at hoctal
    simp only [charEscape]
    cases controlEscape? c <;> cases octalValue? c <;> simp [hoctal, shift]

theorem steady_escape (groups : List (Option String)) (c : Char) :
    Steady fun cs => escape? groups (c :: cs) := by
  intro cs more
  by_cases hedge : c = 'b'
  · subst hedge
    rfl
  by_cases hinner : c = 'B'
  · subst hinner
    rfl
  by_cases hname : c = 'k'
  · subst hname
    simp only [escape?]
    split
    · rcases cs with _ | ⟨d, cs⟩
      · rfl
      by_cases hd : d = '<'
      · subst hd
        simp only [List.cons_append, steady_groupName cs more]
        cases groupName? cs with
        | none => rfl
        | some read =>
          obtain ⟨name, rest⟩ := read
          simp only [Option.map_some, shift, Option.bind_eq_bind, Option.bind_some]
          cases groups.findIdx? (· == some name) <;> rfl
      · simp [hd]
    · rfl
  · have hnumber := steady_number (c :: cs) more
    have hliteral := steady_charEscape false c cs more
    rw [List.cons_append] at hnumber
    simp only [escape?]
    cases classEscape? c with
    | some spans => rfl
    | none =>
      simp only [hnumber, hliteral]
      cases number? (c :: cs) with
      | none => cases charEscape false (c :: cs) <;> rfl
      | some read =>
        simp only [Option.map_some, shift]
        split
        · rfl
        · cases charEscape false (c :: cs) <;> rfl

/-- What stands behind a pattern in parentheses. -/
def closing : List Char := [')', '$']

/-- A class that is not closed takes the parenthesis in, and nothing is left of either text. -/
theorem skipClass_closing (cs : List Char) : skipClass (cs ++ closing) = skipClass cs ++ closing ∨
    skipClass cs = [] ∧ skipClass (cs ++ closing) = [] := by
  fun_induction skipClass cs with
  | case1 c cs ih => exact ih
  | case2 cs => exact .inl rfl
  | case3 c cs hescape hclose ih =>
    rcases cs with _ | ⟨d, cs⟩
    · refine .inr ⟨rfl, ?_⟩
      by_cases hc : c = '\\'
      · subst hc
        rfl
      · simp [skipClass, closing, hc]
    · have hc : c ≠ '\\' := fun h => hescape d cs h rfl
      have hbracket : c ≠ ']' := fun h => hclose h
      simpa [skipClass, hc, hbracket] using ih
  | case4 => exact .inr ⟨rfl, rfl⟩

theorem skipClass_length (cs : List Char) : (skipClass cs).length ≤ cs.length := by
  fun_induction skipClass cs <;> simp only [List.length_cons, List.length_nil] <;> omega

/-- The groups that an opening parenthesis announces, and the text behind the announcement. -/
def announced : List Char → List (Option String) × List Char
  | '?' :: '<' :: rest =>
    if rest.head? = some '=' ∨ rest.head? = some '!' then ([], rest)
    else ([(groupName? rest).map (·.1)], rest)
  | '?' :: rest => ([], rest)
  | rest => ([none], rest)

theorem groupsIn_open (fuel : Nat) (cs : List Char) :
    groupsIn (fuel + 1) ('(' :: cs) = (announced cs).1 ++ groupsIn fuel (announced cs).2 := by
  unfold announced
  split
  · rename_i rest
    rcases rest with _ | ⟨c, rest⟩
    · rfl
    by_cases hahead : c = '='
    · subst hahead
      rfl
    by_cases hnot : c = '!'
    · subst hnot
      rfl
    · simp [groupsIn, hahead, hnot]
  · simp_all [groupsIn]
  · simp_all [groupsIn]

theorem announced_closing (cs : List Char) :
    announced (cs ++ closing) = ((announced cs).1, (announced cs).2 ++ closing) := by
  unfold announced
  rcases cs with _ | ⟨c, _ | ⟨d, cs⟩⟩
  · rfl
  · by_cases hmark : c = '?'
    · subst hmark
      rfl
    · simp [hmark]
  by_cases hmark : c = '?'
  · subst hmark
    by_cases hname : d = '<'
    · subst hname
      have hhead : (cs ++ closing).head? = some '=' ∨ (cs ++ closing).head? = some '!' ↔
          cs.head? = some '=' ∨ cs.head? = some '!' := by
        cases cs <;> simp [closing]
      have hgroup : groupName? (cs ++ closing) = (groupName? cs).map (shift ['$']) :=
        steady_groupName cs ['$']
      simp only [List.cons_append, hhead, hgroup, Option.map_map]
      split <;> rfl
    · simp [hname]
  · simp [hmark]

theorem announced_length (cs : List Char) : (announced cs).2.length ≤ cs.length := by
  unfold announced
  split
  · split <;> simp <;> omega
  · simp
  · simp

theorem groupsIn_closing {fuel enough : Nat} (hfuel : cs.length ≤ fuel)
    (henough : (cs ++ closing).length ≤ enough) :
    groupsIn enough (cs ++ closing) = groupsIn fuel cs := by
  have hend (fuel : Nat) : groupsIn fuel closing = [] := by
    rcases fuel with _ | _ | _ | fuel <;> rfl
  have hnil (fuel : Nat) : groupsIn fuel [] = [] := by
    cases fuel <;> rfl
  simp only [closing, List.length_append, List.length_cons, List.length_nil] at henough
  induction fuel generalizing cs enough with
  | zero =>
    obtain rfl := List.length_eq_zero_iff.mp (Nat.le_zero.mp hfuel)
    exact hend enough
  | succ fuel ih =>
    rcases cs with _ | ⟨c, cs⟩
    · exact hend enough
    obtain ⟨enough, rfl⟩ : ∃ n, enough = n + 1 := ⟨enough - 1, by omega⟩
    simp only [List.length_cons] at hfuel henough
    by_cases hescape : c = '\\'
    · subst hescape
      rcases cs with _ | ⟨d, cs⟩
      · rcases enough with _ | enough <;> simp [closing, groupsIn, hnil]
      · simp only [List.length_cons] at hfuel henough
        exact ih (by omega : cs.length ≤ fuel) (by omega)
    by_cases hclass : c = '['
    · subst hclass
      have hlength := skipClass_length cs
      simp only [List.cons_append, groupsIn]
      rcases skipClass_closing cs with h | ⟨h, h'⟩
      · rw [h]
        exact ih (by omega) (by omega)
      · rw [h, h', hnil, hnil]
    by_cases hopen : c = '('
    · subst hopen
      have hlength := announced_length cs
      simp only [List.cons_append, groupsIn_open, announced_closing]
      rw [ih (by omega) (by omega)]
    · have hother (fuel : Nat) (cs : List Char) : groupsIn (fuel + 1) (c :: cs) =
        groupsIn fuel cs := by
        simp [groupsIn, hescape, hopen]
      rw [List.cons_append, hother, hother]
      exact ih (by omega) (by omega)

end SchemaBeans.Pattern

namespace SchemaBeans.Pattern

/-- Whether a parenthesis is closed that was never opened, with `depth` of them open already. -/
def unopenedFrom (escaped inClass : Bool) (depth : Nat) : List Char → Bool
  | [] => false
  | c :: rest =>
    if escaped then unopenedFrom false inClass depth rest
    else if c = '\\' then unopenedFrom true inClass depth rest
    else if inClass then unopenedFrom false (c ≠ ']') depth rest
    else if c = '[' then unopenedFrom false true depth rest
    else if c = '(' then unopenedFrom false false (depth + 1) rest
    else if c = ')' then depth = 0 || unopenedFrom false false (depth - 1) rest
    else unopenedFrom false false depth rest

/-- The pattern has a closing parenthesis that none before it opens. -/
def Unopened (pattern : List Char) : Prop := unopenedFrom false false 0 pattern = true

variable {inClass : Bool} {c : Char} {cs rest tail : List Char}

/-- The rest is reached without a parenthesis that counts. -/
structure Passes (inClass : Bool) (cs rest : List Char) : Prop where
  suffix : rest <:+ cs
  even : ∀ depth, unopenedFrom false inClass depth cs = unopenedFrom false inClass depth rest

/-- The characters that decide which parentheses count. -/
def signs : List Char := ['\\', '[', ']', '(', ')']

def Plain (c : Char) : Prop := c ∉ signs

instance (c : Char) : Decidable (Plain c) := inferInstanceAs (Decidable (c ∉ signs))

namespace Passes

theorem refl (inClass : Bool) (cs : List Char) : Passes inClass cs cs :=
  ⟨List.suffix_rfl, fun _ => rfl⟩

theorem trans (h : Passes inClass cs rest) (h' : Passes inClass rest tail) :
    Passes inClass cs tail :=
  ⟨h'.suffix.trans h.suffix, fun depth => (h.even depth).trans (h'.even depth)⟩

theorem plain (hc : Plain c) (h : Passes inClass cs rest) : Passes inClass (c :: cs) rest := by
  refine trans ⟨List.suffix_cons _ _, fun depth => ?_⟩ h
  simp only [Plain, signs, List.mem_cons, List.not_mem_nil, or_false, not_or] at hc
  obtain ⟨hescape, hopen, hclose, hleft, hright⟩ := hc
  cases inClass <;> simp [unopenedFrom, hescape, hopen, hclose, hleft, hright]

theorem escaped (h : Passes inClass cs rest) : Passes inClass ('\\' :: c :: cs) rest :=
  trans ⟨(List.suffix_cons _ _).trans (List.suffix_cons _ _), fun _ => rfl⟩ h

end Passes

theorem plain_of (ok : Char → Bool) (hok : signs.all (!ok ·) = true) (h : ok c) : Plain c := by
  intro hc
  have hnot : (!ok c) = true := List.all_eq_true.mp hok c hc
  rw [h] at hnot
  cases hnot

theorem passes_dropWhile {ok : Char → Bool} (hok : signs.all (!ok ·) = true) (cs : List Char) :
    Passes inClass cs (cs.dropWhile ok) := by
  induction cs with
  | nil => exact .refl _ _
  | cons c cs ih =>
    by_cases hc : ok c
    · rw [List.dropWhile_cons_of_pos hc]
      exact .plain (plain_of ok hok hc) ih
    · rw [List.dropWhile_cons_of_neg hc]
      exact .refl _ _

theorem passes_number {n : Nat} (h : number? cs = some (n, rest)) : Passes inClass cs rest := by
  unfold number? at h
  dsimp only at h
  split at h
  · cases h
  · cases h
    exact passes_dropWhile (by decide) cs

theorem plain_of_number {n : Nat} (h : number? (c :: cs) = some (n, rest)) : Plain c := by
  refine plain_of Char.isDigit (by decide) ?_
  by_contra hc
  simp [number?, hc] at h

theorem passes_hex {value n code : Nat} (h : hex? value n cs = some (code, rest)) :
    Passes inClass cs rest := by
  induction n generalizing value cs with
  | zero =>
    cases h
    exact .refl _ _
  | succ n ih =>
    cases cs with
    | nil => cases h
    | cons c cs =>
      rw [hex?] at h
      obtain ⟨d, hd, h⟩ := Option.bind_eq_some_iff.mp h
      have hplain : Plain c := plain_of (fun c => (hexValue? c).isSome) (by decide) (by simp [hd])
      exact .plain hplain (ih h)

theorem passes_octal (value n : Nat) (cs : List Char) : Passes inClass cs (octal value n cs).2 := by
  induction n generalizing value cs with
  | zero => exact .refl _ _
  | succ n ih =>
    cases cs with
    | nil => exact .refl _ _
    | cons c cs =>
      rw [octal]
      split
      · rename_i d hd
        have hplain : Plain c :=
          plain_of (fun c => (octalValue? c).isSome) (by decide) (by simp [hd])
        split
        · exact .plain hplain (ih _ _)
        · exact .refl _ _
      · exact .refl _ _

theorem passes_braces {min : Nat} {max : Option Nat} (h : braces? cs = some (min, max, rest)) :
    Passes inClass cs rest := by
  unfold braces? at h
  obtain ⟨⟨n, rest'⟩, hn, h⟩ := Option.bind_eq_some_iff.mp h
  refine (passes_number hn).trans ?_
  dsimp only at h
  split at h
  · cases h
    exact .plain (by decide) (.refl _ _)
  · cases h
    exact .plain (by decide) (.plain (by decide) (.refl _ _))
  · obtain ⟨⟨m, rest''⟩, hm, h⟩ := Option.bind_eq_some_iff.mp h
    refine .plain (by decide) ((passes_number hm).trans ?_)
    dsimp only at h
    split at h
    · cases h
      exact .plain (by decide) (.refl _ _)
    · cases h
  · cases h

theorem passes_bareCount {min : Nat} {max : Option Nat}
    (h : bareCount? cs = some (min, max, rest)) :
    Passes inClass cs rest := by
  unfold bareCount? at h
  split at h
  · cases h
    exact .plain (by decide) (.refl _ _)
  · cases h
    exact .plain (by decide) (.refl _ _)
  · cases h
    exact .plain (by decide) (.refl _ _)
  · exact .plain (by decide) (passes_braces h)
  · cases h

theorem passes_count {count : Count} (h : count? cs = some (count, rest)) :
    Passes inClass cs rest := by
  unfold count? at h
  obtain ⟨⟨min, max, rest'⟩, hbare, h⟩ := Option.map_eq_some_iff.mp h
  refine (passes_bareCount hbare).trans ?_
  dsimp only at h
  split at h
  · cases h
    exact .plain (by decide) (.refl _ _)
  · cases h
    exact .refl _ _

theorem passes_groupName {name : String} (h : groupName? cs = some (name, rest)) :
    Passes inClass cs rest := by
  rw [groupName?_eq] at h
  have hname : Passes inClass cs (cs.dropWhile isNamePart) :=
    passes_dropWhile (by decide +kernel) cs
  split at h
  · rename_i hrest
    split at h
    · cases h
    · cases h
      rw [hrest] at hname
      exact hname.trans (.plain (by decide) (.refl _ _))
  · cases h

theorem passes_unicode {code : Nat} (h : unicode? cs = some (code, rest)) :
    Passes inClass cs rest := by
  unfold unicode? at h
  split at h
  · cases h
  · rename_i high rest' hhigh
    refine (passes_hex hhigh).trans ?_
    split at h
    · split at h
      · split at h
        · rename_i hlow
          split at h
          · obtain rfl := (Prod.mk.inj (Option.some.inj h)).2
            exact .escaped (passes_hex hlow)
          · cases h
            exact .refl _ _
        · cases h
          exact .refl _ _
      · cases h
        exact .refl _ _
    · cases h
      exact .refl _ _

/-- What a backslash stands before: a character that does not count, or what is plain from its first
character on. -/
inductive Escape (inClass : Bool) : List Char → List Char → Prop where
  | taken (c : Char) {cs rest : List Char} : Passes inClass cs rest → Escape inClass (c :: cs) rest
  | plain {c : Char} {cs rest : List Char} :
    Plain c → Passes inClass (c :: cs) rest → Escape inClass (c :: cs) rest

theorem Escape.suffix (h : Escape inClass cs rest) : rest <:+ cs := by
  cases h with
  | taken _ h => exact h.suffix.trans (List.suffix_cons _ _)
  | plain _ h => exact h.suffix

theorem Escape.passes (h : Escape inClass cs rest) : Passes inClass ('\\' :: cs) rest := by
  cases h with
  | taken _ h => exact .escaped h
  | @plain c cs _ hc h =>
    have hback : Passes inClass ('\\' :: c :: cs) (c :: cs) :=
      ⟨List.suffix_cons _ _, fun depth =>
        ((Passes.escaped (.refl inClass cs)).even depth).trans
          ((Passes.plain hc (.refl inClass cs)).even depth).symm⟩
    exact hback.trans h

theorem escape_charEscape {named : Bool} {code : Nat}
    (h : charEscape named cs = some (code, rest)) :
    Escape inClass cs rest := by
  unfold charEscape at h
  split at h
  · cases h
  · split at h
    · split at h
      · rename_i letter after hletter
        have hplain : Plain letter := by
          refine plain_of (fun c => c.isAlpha || isWordChar c) (by decide) ?_
          simp only [Bool.or_eq_true, Bool.and_eq_true] at hletter ⊢
          exact hletter.imp_right And.right
        cases h
        exact .taken _ (.plain hplain (.refl _ _))
      · cases h
        exact .plain (by decide) (.refl _ _)
    · cases h
      exact .plain (by decide) (.refl _ _)
  · rename_i after
    rcases Option.or_eq_some_iff.mp h with h | ⟨-, h⟩
    · exact .taken _ (passes_hex h)
    · cases h
      exact .taken _ (.refl _ _)
  · rcases Option.or_eq_some_iff.mp h with h | ⟨-, h⟩
    · exact .taken _ (passes_unicode h)
    · cases h
      exact .taken _ (.refl _ _)
  · rename_i c after _ _ _
    split at h
    · cases h
      exact .taken _ (.refl _ _)
    · rename_i d _ hd
      have hplain : Plain c := plain_of (fun c => (octalValue? c).isSome) (by decide) (by simp [hd])
      have hoctal : Passes inClass (c :: after) rest := by
        have hrest : Passes inClass (c :: after) (octal 0 3 (c :: after)).2 := passes_octal _ _ _
        rwa [Option.some.inj h] at hrest
      exact .plain hplain hoctal
    · cases h
      exact .taken _ (.refl _ _)

theorem escape_escape {groups : List (Option String)} {atom : Atom}
    (h : escape? groups cs = some (atom, rest)) : Escape inClass cs rest := by
  unfold escape? at h
  split at h
  · cases h
  · cases h
    exact .taken _ (.refl _ _)
  · cases h
    exact .taken _ (.refl _ _)
  · split at h
    · split at h
      · obtain ⟨⟨name, after⟩, hname, h⟩ := Option.bind_eq_some_iff.mp h
        obtain ⟨index, -, h⟩ := Option.bind_eq_some_iff.mp h
        cases h
        exact .taken _ (.plain (by decide) (passes_groupName hname))
      · cases h
    · cases h
      exact .taken _ (.refl _ _)
  · rename_i c after _ _ _
    split at h
    · cases h
      exact .taken _ (.refl _ _)
    · have hliteral : ∀ {atom rest}, (charEscape false (c :: after)).map
          (fun read => ((⟨charOf read.1, true⟩ : Atom), read.2)) = some (atom, rest) →
          Escape inClass (c :: after) rest := by
        intro atom rest h
        obtain ⟨⟨code, rest'⟩, hcode, h⟩ := Option.map_eq_some_iff.mp h
        cases h
        exact escape_charEscape hcode
      dsimp only at h
      split at h
      · rename_i n after' hn
        split at h
        · cases h
          exact .plain (plain_of_number hn) (passes_number hn)
        · exact hliteral h
      · exact hliteral h

end SchemaBeans.Pattern
