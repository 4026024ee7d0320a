import SchemaBeans.Pattern.Expression

/-! # Where matches end

A match from a place can go several ways, and ends at the place each of them leads to. The places
are listed, preferred ways first, without a thought for what is to match behind them; a search
that tries one way after the other finds the first place on the list that what follows accepts. -/
namespace SchemaBeans.Pattern

variable {back greedy : Bool} {p q : Place}

/-- The ends of as many rounds of a part as the bounds allow. A round beyond the least number has to
move on. -/
def roundEnds (part : Place → List Place) (back greedy : Bool) (min : Nat) (max : Option Nat)
    (p : Place) : List Place :=
  if max = some 0 then [p]
  else
    match min with
    | min + 1 => (part p).flatMap fun q => roundEnds part back greedy min (max.map (· - 1)) q
    | 0 =>
      let further := (part p).flatMap fun q =>
        if q.remaining back < p.remaining back then
          roundEnds part back greedy 0 (max.map (· - 1)) q
        else []
      if greedy then further ++ [p] else p :: further
termination_by (min, p.remaining back)

def stepEnds (back : Bool) (allowed : Char → Bool) (p : Place) : List Place :=
  match p.step? back with
  | some (c, q) => if allowed c then [q] else []
  | none => []

/-- The places where the matches of an expression from a place end, preferred ways first. -/
def Expression.ends (back : Bool) : Expression → Place → List Place
  | empty, p => [p]
  | char c, p => stepEnds back (· = c) p
  | .oneOf cls, p => stepEnds back cls.contains p
  | textStart, p => if p.before.isEmpty then [p] else []
  | textEnd, p => if p.after.isEmpty then [p] else []
  | wordEdge negated, p => if atWordEdge p != negated then [p] else []
  | both first second, p =>
    if back then (second.ends back p).flatMap (first.ends back)
    else (first.ends back p).flatMap (second.ends back)
  | either first second, p => first.ends back p ++ second.ends back p
  | group index body, p => (body.ends back p).map fun q => q.capture index (Place.between p q)
  | look ahead negated body, p =>
    match (body.ends (!ahead) p).head? with
    | none => if negated then [p] else []
    | some found => if negated then [] else [{ p with captures := found.captures }]
  | reference index, p =>
    match p.captures.lookup index with
    | some text => (p.stepOver? back (if back then text.reverse else text)).toList
    | none => [p]
  | loop body min max greedy firstGroup forgotten, p =>
    roundEnds (fun p => body.ends back (p.forget firstGroup forgotten)) back greedy min max p

/-- Some match of the expression reaches from the start of the text to its end. -/
def Expression.MatchesWhole (e : Expression) (text : List Char) : Prop :=
  ∃ q ∈ e.ends false ⟨[], text, []⟩, q.after = []

theorem Place.remaining_step? {c : Char} (h : p.step? back = some (c, q)) :
    q.remaining back < p.remaining back := by
  cases back with
  | false =>
    cases hafter : p.after <;>
      simp only [step?, hafter, Bool.false_eq_true, if_false] at h <;> cases h
    simp [remaining, hafter]
  | true =>
    cases hbefore : p.before <;> simp only [step?, hbefore, if_true] at h <;> cases h
    simp [remaining, hbefore]

theorem Place.remaining_stepOver? {text : List Char} (h : p.stepOver? back text = some q) :
    q.remaining back ≤ p.remaining back := by
  induction text generalizing p with
  | nil =>
    cases h
    exact Nat.le_refl _
  | cons c text ih =>
    simp only [stepOver?] at h
    split at h
    · rename_i next hstep
      split at h
      · exact Nat.le_trans (ih h) (Nat.le_of_lt (remaining_step? hstep))
      · cases h
    · cases h

theorem remaining_stepEnds {allowed : Char → Bool} (h : q ∈ stepEnds back allowed p) :
    q.remaining back ≤ p.remaining back := by
  unfold stepEnds at h
  split at h
  · rename_i hstep
    split at h
    · obtain rfl := List.mem_singleton.mp h
      exact Nat.le_of_lt (Place.remaining_step? hstep)
    · cases h
  · cases h

theorem remaining_moved {part f : Place → List Place}
    (h : q ∈ (part p).flatMap fun r => if r.remaining back < p.remaining back then f r else [])
    (hf : ∀ r, r.remaining back < p.remaining back → q ∈ f r → q.remaining back ≤
      r.remaining back) :
    q.remaining back ≤ p.remaining back := by
  obtain ⟨r, -, hq⟩ := List.mem_flatMap.mp h
  split at hq
  · rename_i hmoved
    exact Nat.le_trans (hf r hmoved hq) (Nat.le_of_lt hmoved)
  · cases hq

theorem remaining_roundEnds {part : Place → List Place}
    (hpart : ∀ p, ∀ q ∈ part p, q.remaining back ≤ p.remaining back) {min : Nat} {max : Option Nat}
    (h : q ∈ roundEnds part back greedy min max p) : q.remaining back ≤ p.remaining back := by
  fun_induction roundEnds part back greedy min max p with
  | case1 =>
    obtain rfl := List.mem_singleton.mp h
    exact Nat.le_refl _
  | case2 max p hmax min ih =>
    obtain ⟨r, hr, hq⟩ := List.mem_flatMap.mp h
    exact Nat.le_trans (ih r hq) (hpart p r hr)
  | case3 max p hmax further hgreedy ih =>
    rcases List.mem_append.mp h with h | h
    · exact remaining_moved h ih
    · obtain rfl := List.mem_singleton.mp h
      exact Nat.le_refl _
  | case4 max p hmax further hgreedy ih =>
    rcases List.mem_cons.mp h with rfl | h
    · exact Nat.le_refl _
    · exact remaining_moved h ih

theorem Expression.remaining_ends {e : Expression} (h : q ∈ e.ends back p) :
    q.remaining back ≤ p.remaining back := by
  induction e generalizing back p q with
  | empty =>
    obtain rfl := List.mem_singleton.mp h
    exact Nat.le_refl _
  | char c => exact remaining_stepEnds h
  | oneOf cls => exact remaining_stepEnds h
  | textStart =>
    obtain ⟨-, rfl⟩ : p.before = [] ∧ q = p := by simpa [ends] using h
    exact Nat.le_refl _
  | textEnd =>
    obtain ⟨-, rfl⟩ : p.after = [] ∧ q = p := by simpa [ends] using h
    exact Nat.le_refl _
  | wordEdge negated =>
    obtain ⟨-, rfl⟩ : ¬atWordEdge p = negated ∧ q = p := by simpa [ends] using h
    exact Nat.le_refl _
  | both first second hfirst hsecond =>
    unfold ends at h
    split at h
    · obtain ⟨r, hr, hq⟩ := List.mem_flatMap.mp h
      exact Nat.le_trans (hfirst hq) (hsecond hr)
    · obtain ⟨r, hr, hq⟩ := List.mem_flatMap.mp h
      exact Nat.le_trans (hsecond hq) (hfirst hr)
  | either first second hfirst hsecond =>
    exact (List.mem_append.mp h).elim hfirst hsecond
  | group index body ih =>
    obtain ⟨r, hr, rfl⟩ := List.mem_map.mp h
    exact ih (q := r) hr
  | look ahead negated body ih =>
    -- A look returns to its own place, with what was captured on the way.
    unfold ends at h
    split at h
    · obtain ⟨-, rfl⟩ : negated ∧ q = p := by simpa using h
      exact Nat.le_refl _
    · rename_i found _
      obtain ⟨-, rfl⟩ : ¬negated ∧ q = { p with captures := found.captures } := by simpa using h
      exact Nat.le_refl _
  | reference index =>
    unfold ends at h
    split at h
    · exact Place.remaining_stepOver? (Option.mem_toList.mp h)
    · obtain rfl := List.mem_singleton.mp h
      exact Nat.le_refl _
  | loop body min max greedy firstGroup forgotten ih =>
    have hbody : ∀ p : Place, ∀ q ∈ body.ends back (p.forget firstGroup forgotten),
        q.remaining back ≤ p.remaining back :=
      fun p q hq => ih (p := p.forget firstGroup forgotten) hq
    exact remaining_roundEnds hbody h

theorem findSome?_flatMap {α β γ : Type} (l : List α) (f : α → List β) (g : β → Option γ) :
    (l.flatMap f).findSome? g = l.findSome? fun a => (f a).findSome? g := by
  induction l with
  | nil => rfl
  | cons a l ih =>
    rw [List.flatMap_cons, List.findSome?_append, ih, List.findSome?_cons]
    cases (f a).findSome? g <;> rfl

theorem findSome?_congr {α β : Type} {l : List α} {f g : α → Option β} (h : ∀ a ∈ l, f a = g a) :
    l.findSome? f = l.findSome? g := by
  induction l with
  | nil => rfl
  | cons a l ih =>
    rw [List.findSome?_cons, List.findSome?_cons, h a List.mem_cons_self,
      ih fun b hb => h b (List.mem_cons_of_mem _ hb)]

theorem rounds_eq_findSome? {part : Next → Next} {partEnds : Place → List Place} {next : Next}
    (hpart : ∀ next p, part next p = (partEnds p).findSome? next)
    (hmove : ∀ p, ∀ q ∈ partEnds p, q.remaining back ≤ p.remaining back) (fuel min : Nat)
    (max : Option Nat) (p : Place) (hfuel : min + p.remaining back < fuel) :
    rounds part back greedy next fuel min max p =
      (roundEnds partEnds back greedy min max p).findSome? next := by
  induction fuel generalizing min max p with
  | zero => exact absurd hfuel (Nat.not_lt_zero _)
  | succ fuel ih =>
    unfold rounds roundEnds
    by_cases hmax : max = some 0
    · simp [hmax]
    · simp only [hmax, if_false, hpart]
      cases min with
      | succ min =>
        have hround : ∀ q ∈ partEnds p, rounds part back greedy next fuel min (max.map (· - 1)) q =
            (roundEnds partEnds back greedy min (max.map (· - 1)) q).findSome? next := by
          intro q hq
          have hle := hmove p q hq
          exact ih _ _ _ (by omega)
        simp [findSome?_flatMap, findSome?_congr hround]
      | zero =>
        have hround : ∀ q ∈ partEnds p,
            (if q.remaining back = p.remaining back then none
              else rounds part back greedy next fuel 0 (max.map (· - 1)) q) =
            (if q.remaining back < p.remaining back then
              roundEnds partEnds back greedy 0 (max.map (· - 1)) q else []).findSome? next := by
          intro q hq
          have hle := hmove p q hq
          by_cases hmoved : q.remaining back < p.remaining back
          · rw [if_neg (by omega), if_pos hmoved]
            exact ih _ _ _ (by omega)
          · rw [if_pos (by omega), if_neg hmoved]
            rfl
        cases greedy with
        | true => simp [findSome?_flatMap, findSome?_congr hround, List.findSome?_append]
        | false =>
          cases hnext : next p <;>
            simp [findSome?_flatMap, findSome?_congr hround, hnext]

theorem stepIf_eq_findSome? (back : Bool) (allowed : Char → Bool) (next : Next) (p : Place) :
    stepIf back allowed next p = (stepEnds back allowed p).findSome? next := by
  unfold stepIf stepEnds
  cases p.step? back with
  | none => rfl
  | some step =>
    obtain ⟨c, q⟩ := step
    dsimp only
    split <;> simp

theorem Expression.run_eq_findSome? (e : Expression) (back : Bool) (next : Next) (p : Place) :
    e.run back next p = (e.ends back p).findSome? next := by
  induction e generalizing back next p with
  | empty => simp [run, ends]
  | char c => exact stepIf_eq_findSome? _ _ _ _
  | oneOf cls => exact stepIf_eq_findSome? _ _ _ _
  | textStart =>
    unfold run ends
    split <;> simp
  | textEnd =>
    unfold run ends
    split <;> simp
  | wordEdge negated =>
    unfold run ends
    split <;> simp
  | both first second hfirst hsecond =>
    have hfirst' := funext (hfirst back next)
    have hsecond' := funext (hsecond back next)
    unfold run ends
    split
    · rw [hsecond, hfirst', findSome?_flatMap]
    · rw [hfirst, hsecond', findSome?_flatMap]
  | either first second hfirst hsecond => simp [run, ends, hfirst, hsecond, List.findSome?_append]
  | group index body ih => simp [run, ends, ih, List.findSome?_map, Function.comp_def]
  | look ahead negated body ih =>
    have hfound : (body.ends (!ahead) p).findSome? some = (body.ends (!ahead) p).head? := by
      cases body.ends (!ahead) p <;> rfl
    unfold run ends
    rw [ih, hfound]
    cases (body.ends (!ahead) p).head? <;> cases negated <;> simp
  | reference index =>
    unfold run ends
    cases p.captures.lookup index with
    | none => simp
    | some text =>
      dsimp only
      cases p.stepOver? back (if back then text.reverse else text) <;> simp
  | loop body min max greedy firstGroup forgotten ih =>
    exact rounds_eq_findSome? (fun next p => ih back next (p.forget firstGroup forgotten))
      (fun p q hq => remaining_ends (p := p.forget firstGroup forgotten) hq) _ _ _ _
      (Nat.lt_succ_self _)

namespace Expression

variable {e : Expression} {text : List Char}

theorem occursIn_iff : e.occursIn text ↔ ∃ p ∈ starts [] text, ∃ q, q ∈ e.ends false p := by
  simp only [occursIn, List.any_eq_true, run_eq_findSome?, List.findSome?_isSome_iff,
    Option.isSome_some, and_true]

/-- The expression from the start of a text to its end. -/
def anchored (e : Expression) : Expression := .both .textStart (.both e (.both .textEnd .empty))

theorem mem_ends_anchored :
    q ∈ e.anchored.ends false p ↔ p.before = [] ∧ q ∈ e.ends false p ∧ q.after = [] := by
  simp only [anchored, ends, Bool.false_eq_true, if_false, List.isEmpty_iff, List.mem_flatMap,
    List.mem_ite_nil_right, List.mem_singleton]
  constructor
  · rintro ⟨_, ⟨hbefore, rfl⟩, _, hends, _, ⟨hafter, rfl⟩, rfl⟩
    exact ⟨hbefore, hends, hafter⟩
  · rintro ⟨hbefore, hends, hafter⟩
    exact ⟨p, ⟨hbefore, rfl⟩, q, hends, q, ⟨hafter, rfl⟩, rfl⟩

theorem mem_starts {before : List Char} (h : p ∈ starts before text) (hp : p.before = []) :
    before = [] ∧ p = ⟨[], text, []⟩ := by
  induction text generalizing before with
  | nil =>
    obtain rfl := List.mem_singleton.mp h
    cases hp
    exact ⟨rfl, rfl⟩
  | cons c text ih =>
    rcases List.mem_cons.mp h with rfl | h
    · cases hp
      exact ⟨rfl, rfl⟩
    · exact absurd (ih h).1 (List.cons_ne_nil _ _)

theorem start_mem_starts : ⟨[], text, []⟩ ∈ starts [] text := by
  cases text <;> simp [starts]

theorem occursIn_anchored : e.anchored.occursIn text ↔ e.MatchesWhole text := by
  rw [occursIn_iff]
  constructor
  · rintro ⟨p, hp, q, hq⟩
    obtain ⟨hbefore, hends, hafter⟩ := mem_ends_anchored.mp hq
    obtain ⟨-, rfl⟩ := mem_starts hp hbefore
    exact ⟨q, hends, hafter⟩
  · rintro ⟨q, hq, hafter⟩
    exact ⟨_, start_mem_starts, q, mem_ends_anchored.mpr ⟨rfl, hq, hafter⟩⟩

end Expression

end SchemaBeans.Pattern
