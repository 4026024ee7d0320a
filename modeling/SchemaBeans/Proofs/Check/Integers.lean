import SchemaBeans.Proofs.Binary64.Monotone
import SchemaBeans.Proofs.Decoration.Validation

/-! # Integers against integer bounds

A value and a bound are compared as the doubles nearest to them. Rounding keeps the order of
integers, so a check goes wrong only where two different integers have one nearest double: then
an inclusive bound is never broken and an exclusive one always. Up to 2^53 there are no such
integers, and between words of 64 bits they are at most 2^10 apart. -/
namespace SchemaBeans.Check

open Binary64
open JsonNumber (signedMin signedMax)

variable {side : Side} {inclusive : Bool} {v b n : Int} {path : String}

def Word (n : Int) : Prop := signedMin ≤ n ∧ n ≤ signedMax

instance : DecidablePred Word := fun _ => inferInstanceAs (Decidable (_ ∧ _))

instance : (side : Side) → (inclusive : Bool) → (v b : Int) → Decidable (Beyond side inclusive v b)
  | .lower, true, v, b => inferInstanceAs (Decidable (v < b))
  | .lower, false, v, b => inferInstanceAs (Decidable (v ≤ b))
  | .upper, true, v, b => inferInstanceAs (Decidable (b < v))
  | .upper, false, v, b => inferInstanceAs (Decidable (b ≤ v))

def onInteger (side : Side) (inclusive : Bool) (b v : Int) (path : String) : List Violation :=
  valueViolations [side.directive (toString b) inclusive] path (some (.number (.integer v)))

def rounded (n : Int) : ℚ := (ofInt n).value

theorem Word.natAbs_le (h : Word n) : n.natAbs ≤ 2 ^ 63 := by
  obtain ⟨hleast, hmost⟩ := h
  unfold signedMin at hleast
  unfold signedMax at hmost
  omega

theorem Word.finite (h : Word n) : (ofInt n).isFinite = true :=
  ofInt_finite (h.natAbs_le.trans (by norm_num))

theorem rounded_mono (hv : Word v) (hb : Word b) (h : v ≤ b) : rounded v ≤ rounded b :=
  ofInt_mono hv.finite hb.finite h

theorem rounded_exact (h : n.natAbs ≤ 2 ^ 53) : rounded n = n := (ofInt_exact h).2

theorem Word.rounded_near (h : Word n) : |rounded n - n| ≤ 2 ^ 9 := by
  rcases h.natAbs_le.lt_or_eq with hless | hsame
  · exact ofInt_near hless
  · -- The smallest word is a power of two.
    have hleast : n = -2 ^ 63 := by
      have hmost := h.2
      unfold signedMax at hmost
      omega
    have hdouble : ofInt (-2 ^ 63) = .finite true leadingBit 11 := by decide +kernel
    rw [rounded, hleast, hdouble, value, leadingBit_eq]
    norm_num

theorem rounded_injective (hv : Word v) (hb : Word b)
    (h : v.natAbs ≤ 2 ^ 53 ∧ b.natAbs ≤ 2 ^ 53 ∨ 2 ^ 10 < |v - b|) :
    v = b ∨ rounded v ≠ rounded b := by
  by_contra hboth
  obtain ⟨hdiffer, hsame⟩ := not_or.mp hboth
  replace hsame := not_not.mp hsame
  rcases h with ⟨hv, hb⟩ | hfar
  · rw [rounded_exact hv, rounded_exact hb] at hsame
    exact hdiffer (by exact_mod_cast hsame)
  · have hnear : |(v - b : ℚ)| ≤ 2 ^ 10 := by
      obtain ⟨hlow, hhigh⟩ := abs_le.mp hv.rounded_near
      obtain ⟨hlow', hhigh'⟩ := abs_le.mp hb.rounded_near
      rw [abs_le]
      constructor <;> linarith
    have hcast : |v - b| ≤ 2 ^ 10 := by exact_mod_cast hnear
    omega

theorem beyond_self (side : Side) (inclusive : Bool) (x : ℚ) :
    Beyond side inclusive x x ↔ inclusive = false := by
  cases side <;> cases inclusive <;> simp [Beyond]

theorem beyond_rounded (hv : Word v) (hb : Word b) (h : rounded v ≠ rounded b) :
    Beyond side inclusive (rounded v) (rounded b) ↔ Beyond side inclusive v b := by
  have hless : ∀ {m n : Int}, Word m → Word n → rounded m ≠ rounded n →
      (rounded m < rounded n ↔ m < n) := fun hm hn hdiffer =>
    ⟨fun hlt => lt_of_not_ge fun hge => hlt.not_ge (rounded_mono hn hm hge),
      fun hlt => (rounded_mono hm hn hlt.le).lt_of_ne hdiffer⟩
  have hmost : ∀ {m n : Int}, Word m → Word n → rounded m ≠ rounded n →
      (rounded m ≤ rounded n ↔ m ≤ n) := fun hm hn hdiffer => by
    rw [← not_lt, ← not_lt, hless hn hm hdiffer.symm]
  cases side with
  | lower =>
    cases inclusive with
    | true => exact hless hv hb h
    | false => exact hmost hv hb h
  | upper =>
    cases inclusive with
    | true => exact hless hb hv h.symm
    | false => exact hmost hb hv h.symm

/-- The value breaks the bound, as far as its nearest double tells. -/
def Broken (side : Side) (inclusive : Bool) (b v : Int) : Prop :=
  rounded v = rounded b ∧ inclusive = false ∨ rounded v ≠ rounded b ∧ Beyond side inclusive v b

instance (side : Side) (inclusive : Bool) (b v : Int) : Decidable (Broken side inclusive b v) :=
  inferInstanceAs (Decidable (_ ∨ _))

theorem broken_iff (hv : Word v) (hb : Word b) :
    breaks side inclusive (ofInt v) (ofInt b) = true ↔ Broken side inclusive b v := by
  rw [breaks_iff hv.finite hb.finite]
  change Beyond side inclusive (rounded v) (rounded b) ↔ _
  by_cases h : rounded v = rounded b
  · simp [Broken, h, beyond_self]
  · simp [Broken, h, beyond_rounded hv hb h]

theorem onInteger_eq (hv : Word v) (hb : Word b) :
    onInteger side inclusive b v path =
      if Broken side inclusive b v then
        [⟨path, "must be " ++ relation side inclusive ++ " " ++ toString b⟩]
      else [] := by
  have hlimit : ofText? (toString b).toList = some (ofInt b) :=
    JsonNumber.ofText?_integer (hb.natAbs_le.trans_lt (by norm_num))
  have hbroken : broken? (some (.number (.integer v))) (side.directive (toString b) inclusive) =
      if breaks side inclusive (ofInt v) (ofInt b) then
        some ("must be " ++ relation side inclusive ++ " " ++ toString b)
      else none := present?_directive.trans (bound?_integer hlimit)
  rw [onInteger, valueViolations, List.filterMap_cons, hbroken]
  by_cases h : Broken side inclusive b v
  · rw [if_pos h, if_pos ((broken_iff hv hb).mpr h)]
    rfl
  · rw [if_neg h, if_neg fun hbreaks => h ((broken_iff hv hb).mp hbreaks)]
    rfl

theorem onInteger_ne_nil (hv : Word v) (hb : Word b) :
    onInteger side inclusive b v path ≠ [] ↔ Broken side inclusive b v := by
  rw [onInteger_eq hv hb]
  split <;> simp [*]

theorem broken_exact : (∀ side inclusive, Broken side inclusive b v ↔ Beyond side inclusive v b) ↔
    v = b ∨ rounded v ≠ rounded b := by
  constructor
  · intro h
    by_contra hboth
    obtain ⟨hdiffer, hsame⟩ := not_or.mp hboth
    have hlower : ¬v < b := fun hless => by
      simpa [Broken, not_not.mp hsame] using (h .lower true).mpr hless
    have hupper : ¬b < v := fun hless => by
      simpa [Broken, not_not.mp hsame] using (h .upper true).mpr hless
    omega
  · rintro (rfl | hdiffer) side inclusive
    · cases side <;> cases inclusive <;> simp [Broken, Beyond]
    · simp [Broken, hdiffer]

/-- A word has at most one violation under a bound that is a word, and the check is right about
every inclusive and exclusive bound on both sides exactly if the two words have different nearest
doubles or are equal. Where different words have one nearest double, an inclusive bound reports
neither of them and an exclusive one both. This does not happen up to 2^53, nor to words more than
2^10 apart. -/
theorem integer_bounds_checked (hv : Word v) (hb : Word b) (path : String) :
    (∀ side inclusive, onInteger side inclusive b v path =
      if Broken side inclusive b v then
        [⟨path, "must be " ++ relation side inclusive ++ " " ++ toString b⟩]
      else []) ∧
    ((∀ side inclusive, onInteger side inclusive b v path ≠ [] ↔ Beyond side inclusive v b) ↔
      v = b ∨ rounded v ≠ rounded b) ∧
    (v.natAbs ≤ 2 ^ 53 ∧ b.natAbs ≤ 2 ^ 53 ∨ 2 ^ 10 < |v - b| →
      v = b ∨ rounded v ≠ rounded b) := by
  refine ⟨fun side inclusive => onInteger_eq hv hb, ?_, rounded_injective hv hb⟩
  simp only [onInteger_ne_nil hv hb]
  exact broken_exact

/-- Two even integers that are neighbours among the doubles above 2^53 are told apart. -/
theorem integer_bounds_checked_even :
    Word 9007199254740992 ∧ Word 9007199254740994 ∧
    onInteger .lower true 9007199254740994 9007199254740992 "p" =
      [⟨"p", "must be greater than or equal to 9007199254740994"⟩] ∧
    ∀ side inclusive, onInteger side inclusive 9007199254740994 9007199254740992 "p" ≠ [] ↔
      Beyond side inclusive (9007199254740992 : Int) 9007199254740994 := by
  have hv : Word 9007199254740992 := by decide
  have hb : Word 9007199254740994 := by decide
  have hdiffer : rounded 9007199254740992 ≠ rounded 9007199254740994 := by decide +kernel
  obtain ⟨hreport, hexact, -⟩ := integer_bounds_checked hv hb "p"
  have hbroken : Broken .lower true 9007199254740994 9007199254740992 :=
    .inr ⟨hdiffer, by decide⟩
  exact ⟨hv, hb, (hreport .lower true).trans (if_pos hbroken), hexact.mpr (.inr hdiffer)⟩

/-- The integer below a bound may be rounded to it. -/
theorem neighbours_confused : ¬∀ side inclusive b v path, Word v → Word b →
    (onInteger side inclusive b v path ≠ [] ↔ Beyond side inclusive v b) := by
  intro h
  have hbeyond : Beyond .lower true (9007199254740992 : Int) 9007199254740993 := by decide
  have hnone : onInteger .lower true 9007199254740993 9007199254740992 "p" = [] := by
    decide +kernel
  exact (h _ _ _ _ _ (by decide) (by decide)).mpr hbeyond hnone

end SchemaBeans.Check
