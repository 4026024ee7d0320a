import SchemaBeans.Json.Number
import SchemaBeans.Proofs.Binary64.Formats
import SchemaBeans.Proofs.Binary64.Order
import SchemaBeans.Proofs.Binary64.Text

/-! # Numbers as decimals

A number is written as a sign and a decimal, which need not be the number itself: a double is
written with as few digits as tell it from other doubles. Rounded to double or to single
precision, the decimal still gives a number nearest to the one that is written. -/

namespace SchemaBeans.JsonNumber

open Binary64

variable {n : JsonNumber}

/-- An integer is a word, and a double is finite. -/
def WellFormed : JsonNumber → Prop
  | integer n => signedMin ≤ n ∧ n ≤ wordMax
  | float x => x.isFinite = true ∧ x.WellFormed

/-- The fraction that a number is. -/
def rational : JsonNumber → ℚ
  | integer n => n
  | float x => x.value

/-- The number is no larger than 2^53. -/
structure Fits (n : JsonNumber) : Prop where
  wellFormed : n.WellFormed
  size : |n.rational| ≤ 2 ^ 53

theorem ofDecimal_natural {k : Nat} (h : k < 10 ^ 20) (negative : Bool) :
    ofDecimal negative ⟨k, 0⟩ = nearest negative k 1 := by
  have hlength : (toString k).length ≤ 20 := by
    rw [Nat.toString_eq_repr]
    exact (Nat.length_repr_le_iff (by decide)).mpr h
  have hten : tenUp 0 = 1 ∧ tenDown 0 = 1 := ⟨rfl, rfl⟩
  unfold ofDecimal
  dsimp only
  rcases Nat.eq_zero_or_pos k with rfl | hpos
  · rw [if_pos (.inl rfl), nearest, if_pos rfl]
  · rw [if_neg (by omega), if_neg (by omega), hten.1, hten.2, Nat.mul_one]

theorem ofText?_integer {n : Int} (h : n.natAbs < 10 ^ 20) :
    ofText? (toString n).toList = some (ofInt n) := by
  have hnumeral : ∀ k : Nat, Numeral (toString k).toList ⟨k, 0⟩ := fun k => by
    have hplain := @Numeral.plain _ [] 0 (toString_ne_nil k)
      (fun _ => isDigit_of_mem_toString) rfl
    rwa [digitsValue_toString, List.append_nil] at hplain
  cases n with
  | ofNat k =>
    have hread := ofText?_numeral (hnumeral k) false
    rw [ofDecimal_natural (k := k) h] at hread
    exact hread
  | negSucc k =>
    have hread := ofText?_numeral (hnumeral (k + 1)) true
    have htext : toString (Int.negSucc k) = "-" ++ toString (k + 1) := rfl
    have hnearest : ofInt (Int.negSucc k) = nearest true (k + 1) 1 := by
      rw [ofInt, decide_eq_true (Int.negSucc_lt_zero k)]
      rfl
    rw [ofDecimal_natural (k := k + 1) h] at hread
    rw [htext, String.toList_append, hnearest]
    exact hread

theorem ofText?_text (h : n.WellFormed) : ofText? n.text.toList = some n.toBinary64 := by
  cases n with
  | integer n =>
    obtain ⟨hleast, hmost⟩ := h
    unfold signedMin at hleast
    unfold wordMax at hmost
    exact ofText?_integer (by omega)
  | float x => exact Binary64.ofText?_text (.inr rfl) h.2

theorem toBinary64_exact (h : n.Fits) :
    n.toBinary64.isFinite = true ∧ n.toBinary64.value = n.rational := by
  cases n with
  | integer n =>
    refine ofInt_exact ?_
    have hcast : ((n.natAbs : Int) : ℚ) ≤ 2 ^ 53 := by
      rw [Int.natCast_natAbs, Int.cast_abs]
      exact h.size
    have hend : significandEnd = 2 ^ 53 := by decide
    rw [hend]
    exact_mod_cast hcast
  | float x => exact ⟨h.wellFormed.1, rfl⟩

end SchemaBeans.JsonNumber

namespace SchemaBeans

open Binary64 (Numeral signText)

namespace Binary64

theorem abs_value (negative : Bool) (m : Nat) (e : Int) :
    |(finite negative m e).value| = m * 2 ^ e := by
  have hsize : (0 : ℚ) ≤ m * 2 ^ e := mul_nonneg (Nat.cast_nonneg m) (two_pow_pos e).le
  cases negative <;> simp [value]

theorem value_eq_zero {negative : Bool} {m : Nat} {e : Int} :
    (finite negative m e).value = 0 ↔ m = 0 := by
  rw [← abs_eq_zero, abs_value, mul_eq_zero, or_iff_left (two_pow_pos e).ne', Nat.cast_eq_zero]

end Binary64

namespace JsonNumber

variable {n : JsonNumber}

def isNegative : JsonNumber → Bool
  | integer n => n < 0
  | float (.finite negative _ _) => negative
  | float _ => false

/-- The decimal that is written behind the sign. -/
def written : JsonNumber → ℚ
  | integer n => n.natAbs
  | float (.finite _ m e) => if m = 0 then 0 else (Binary64.shortest m e).value
  | float _ => 0

theorem text_integer (n : Int) : (integer n).text.toList =
    signText (integer n).isNegative ++ (toString n.natAbs).toList := by
  cases n with
  | ofNat k => rfl
  | negSucc k =>
    have hnegative : (integer (Int.negSucc k)).isNegative = true :=
      decide_eq_true (Int.negSucc_lt_zero k)
    rw [hnegative]
    exact String.toList_append ..

theorem text_numeral (h : n.WellFormed) : ∃ body decimal,
    n.text.toList = signText n.isNegative ++ body ∧ Numeral body decimal ∧
      decimal.value = n.written := by
  cases n with
  | integer n =>
    have hplain := @Numeral.plain _ [] 0 (Binary64.toString_ne_nil n.natAbs)
      (fun _ => Binary64.isDigit_of_mem_toString) rfl
    rw [List.append_nil, Binary64.digitsValue_toString] at hplain
    exact ⟨_, _, text_integer n, hplain, by simp [Binary64.Decimal.value, written]⟩
  | float x =>
    cases x with
    | finite negative m e =>
      have htext : (float (.finite negative m e)).text.toList = signText negative ++
          (if m = 0 then "0" ++ layout.whole
            else layout.positive (Binary64.shortest m e)).toList := by
        simp only [text, Binary64.Layout.text, signText]
        cases negative <;> simp
      have hlayout : layout.Plain := .inr rfl
      by_cases hm : m = 0
      · obtain ⟨spelled, hspelled, hvalue⟩ :=
          hlayout.numeral (List.cons_ne_nil '0' []) Binary64.allDigits_zero
        refine ⟨_, spelled, htext, ?_, ?_⟩
        · rw [if_pos hm, String.toList_append]
          exact hspelled
        · rw [hvalue, written, if_pos hm]
          rfl
      · obtain ⟨spelled, hspelled, hvalue⟩ :=
          Binary64.Layout.positive_numeral hlayout (Binary64.shortest m e)
        refine ⟨_, spelled, htext, ?_, ?_⟩
        · rw [if_neg hm]
          exact hspelled
        · rw [hvalue, written, if_neg hm]
    | infinite negative => cases h.1
    | nan => cases h.1

theorem shows_double {x : Binary64} (h : (float x).WellFormed) :
    '.' ∈ (float x).text.toList ∨ 'e' ∈ (float x).text.toList := by
  have hpositive : ∀ decimal, '.' ∈ (layout.positive decimal).toList ∨
      'e' ∈ (layout.positive decimal).toList := by
    intro decimal
    unfold Binary64.Layout.positive
    dsimp only
    split_ifs <;> simp [layout]
  cases x with
  | finite negative m e =>
    rw [text, Binary64.Layout.text]
    have hbody : '.' ∈ (if m = 0 then "0" ++ layout.whole
        else layout.positive (Binary64.shortest m e)).toList ∨ 'e' ∈ (if m = 0 then "0" ++
          layout.whole else layout.positive (Binary64.shortest m e)).toList := by
      split
      · exact .inl (by decide)
      · exact hpositive _
    cases negative with
    | false => exact hbody
    | true => simpa using hbody
  | infinite negative => cases h.1
  | nan => cases h.1

theorem written_nonneg (n : JsonNumber) : 0 ≤ n.written := by
  unfold written
  split
  · exact Nat.cast_nonneg _
  · split
    · exact le_rfl
    · exact mul_nonneg (Nat.cast_nonneg _) (Binary64.ten_pow_pos _).le
  · exact le_rfl

theorem written_near {negative : Bool} {m : Nat} {e : Int}
    (h : (float (.finite negative m e)).WellFormed) (hm : m ≠ 0) :
    0 < (float (.finite negative m e)).written ∧
      Binary64.Near m e (float (.finite negative m e)).written := by
  obtain ⟨hdigits, hnear⟩ := Binary64.shortest_near h.2 (Nat.pos_of_ne_zero hm)
  rw [written, if_neg hm]
  refine ⟨mul_pos ?_ (Binary64.ten_pow_pos _), hnear⟩
  exact_mod_cast hdigits

theorem written_eq_zero (h : n.WellFormed) : n.written = 0 ↔ n.rational = 0 := by
  cases n with
  | integer n => simp [written, rational]
  | float x =>
    cases x with
    | finite negative m e =>
      rw [rational, Binary64.value_eq_zero]
      by_cases hm : m = 0
      · simp [written, hm]
      · simp [(written_near h hm).1.ne', hm]
    | infinite negative => cases h.1
    | nan => cases h.1

theorem double_round_written (h : n.WellFormed) :
    n.written = |n.rational| ∨ Format.double.round n.written = |n.rational| := by
  cases n with
  | integer n => exact .inl (by simp [written, rational])
  | float x =>
    cases x with
    | finite negative m e =>
      rw [rational, Binary64.abs_value]
      by_cases hm : m = 0
      · exact .inl (by simp [written, hm])
      · obtain ⟨hpos, hnear⟩ := written_near h hm
        exact .inr (Format.double_round_of_near h.2 (Nat.pos_of_ne_zero hm) hpos hnear)
    | infinite negative => cases h.1
    | nan => cases h.1

theorem abs_rational_le_double (h : n.WellFormed) : |n.rational| ≤ Format.double.greatest := by
  have hgreatest : Format.double.greatest = (2 ^ 53 - 1) * 2 ^ (971 : Int) := rfl
  rw [hgreatest]
  cases n with
  | integer n =>
    obtain ⟨hleast, hmost⟩ := h
    have hword : n.natAbs ≤ 2 ^ 64 := by
      unfold signedMin at hleast
      unfold wordMax at hmost
      omega
    have hcast : |(integer n).rational| ≤ 2 ^ 64 := by
      rw [rational, ← Int.cast_abs, ← Nat.cast_natAbs]
      exact_mod_cast hword
    refine hcast.trans ?_
    calc (2 : ℚ) ^ 64 ≤ (2 ^ 53 - 1) * 2 ^ (12 : Int) := by norm_num
      _ ≤ (2 ^ 53 - 1) * 2 ^ (971 : Int) :=
          mul_le_mul_of_nonneg_left (Format.two_pow_le (by decide)) (by norm_num)
  | float x =>
    cases x with
    | finite negative m e =>
      rw [rational, Binary64.abs_value]
      have hm : (m : ℚ) + 1 ≤ 2 ^ (53 : Int) := by
        rw [← Binary64.significandEnd_eq]
        exact_mod_cast h.2.below
      exact mul_le_mul (le_sub_iff_add_le.mpr hm) (Format.two_pow_le h.2.most)
        (Binary64.two_pow_pos e).le (by norm_num)
    | infinite negative => cases h.1
    | nan => cases h.1

theorem double_nearestTo (h : n.WellFormed) :
    Format.double.NearestTo (Format.double.round n.written) |n.rational| := by
  refine Format.nearestTo_round (by decide) Format.spells_greatest_double n.written_nonneg
    (fun hzero => abs_eq_zero.mpr ((written_eq_zero h).mp hzero)) (abs_rational_le_double h)
    fun hpos r hr => ?_
  rcases double_round_written h with hsame | hsame
  · rw [← hsame]
    exact Format.round_nearest (by decide) hpos hr
  · rw [hsame, sub_self, abs_zero]
    exact abs_nonneg _

/-- No number vanishes in double precision: an integer has at least the size of one, and a double is
rounded to itself. -/
theorem double_round_eq_zero (h : n.WellFormed) (hround : Format.double.round n.written = 0) :
    n.rational = 0 := by
  by_contra hne
  have hpos : 0 < n.written :=
    lt_of_le_of_ne n.written_nonneg fun hzero => hne ((written_eq_zero h).mp hzero.symm)
  cases n with
  | integer k =>
    have hspelled : Format.double.Spells 1 := ⟨1, 0, by decide, by decide, by norm_num⟩
    have hone : (1 : ℚ) ≤ (integer k).written := by
      rw [written] at hpos ⊢
      exact Nat.one_le_cast.mpr (Nat.cast_pos.mp hpos)
    have := Format.le_round (by decide) hpos hspelled hone
    linarith
  | float x =>
    rcases double_round_written h with hsame | hsame
    · cases x with
      | finite negative m e =>
        have hspelled : Format.double.Spells (float (.finite negative m e)).written :=
          ⟨m, e, h.2.below, h.2.least, by rw [hsame, rational, Binary64.abs_value]⟩
        exact hpos.ne' ((Format.round_of_spells (by decide) hpos hspelled).symm.trans hround)
      | infinite negative => cases h.1
      | nan => cases h.1
    · exact hne (abs_eq_zero.mp (hsame.symm.trans hround))

theorem single_nearestTo (h : n.WellFormed) (hle : |n.rational| ≤ Format.single.greatest) :
    Format.single.NearestTo (Format.single.round n.written) |n.rational| := by
  refine Format.nearestTo_round (by decide) Format.spells_greatest_single n.written_nonneg
    (fun hzero => abs_eq_zero.mpr ((written_eq_zero h).mp hzero)) hle fun hpos r hr => ?_
  rcases double_round_written h with hsame | hsame
  · rw [← hsame]
    exact Format.round_nearest (by decide) hpos hr
  · rw [← hsame]
    exact Format.single_nearest_double hpos hr

end JsonNumber

end SchemaBeans
