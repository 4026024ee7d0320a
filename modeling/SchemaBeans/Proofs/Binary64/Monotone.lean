import SchemaBeans.Proofs.Binary64.Order
import SchemaBeans.Proofs.Binary64.Shortest

/-! # Rounding keeps the order

A smaller fraction is never rounded to a larger double. Fractions with one exponent are rounded to
numbers of the same unit, each at most half a unit away; between fractions with different exponents
stands a power of two, which neither of them is rounded across. -/
namespace SchemaBeans.Binary64

variable {num den more other : Nat} {negative : Bool} {e : Int} {a b : Int}

theorem inUnits_near (num : Nat) (hden : 0 < den) (e : Int) :
    ((inUnits num den e : ℚ) - 1 / 2) * 2 ^ e ≤ num / den ∧
      (num / den : ℚ) ≤ (inUnits num den e + 1 / 2) * 2 ^ e := by
  have hpos : (0 : ℚ) < den := by exact_mod_cast hden
  have hdown : (0 : ℚ) < scaleDown e := by exact_mod_cast scaleDown_pos e
  have hboth : (0 : ℚ) < den * scaleDown e := mul_pos hpos hdown
  obtain ⟨hbelow, habove⟩ :=
    roundHalfEven_near (num * scaleDown e) (Nat.mul_pos hden (scaleUp_pos e))
  have hx : (num / den : ℚ) * (den * scaleDown e) = num * scaleDown e := by
    field_simp
  have hscale : (2 : ℚ) ^ e * (den * scaleDown e) = den * scaleUp e := by
    rw [scaleUp_eq]
    ring
  unfold inUnits
  generalize roundHalfEven (num * scaleDown e) (den * scaleUp e) = m at hbelow habove ⊢
  rw [← Nat.cast_le (α := ℚ)] at hbelow habove
  push_cast at hbelow habove
  constructor
  · refine le_of_mul_le_mul_right ?_ hboth
    rw [hx, mul_assoc, hscale]
    linarith
  · refine le_of_mul_le_mul_right ?_ hboth
    rw [hx, mul_assoc, hscale]
    linarith

def significandOf (num den : Nat) : Nat := inUnits num den (exponentFor num den)

/-- The size of the double nearest to a fraction, where doubles are large enough. -/
def roundedSize (num den : Nat) : ℚ := significandOf num den * 2 ^ exponentFor num den

theorem significandOf_le (hnum : 0 < num) (hden : 0 < den) :
    significandOf num den ≤ significandEnd := by
  obtain ⟨-, hfits, -⟩ := exponentFor_spec hnum hden
  have hhalf := (inUnits_near num hden (exponentFor num den)).1
  have hunit := two_pow_pos (exponentFor num den)
  rw [add_comm, zpow_add₀ (by norm_num), ← significandEnd_eq] at hfits
  have hless : (inUnits num den (exponentFor num den) : ℚ) - 1 / 2 < significandEnd :=
    lt_of_mul_lt_mul_right (hhalf.trans_lt hfits) hunit.le
  have hnext : (significandOf num den : ℚ) < (significandEnd + 1 : Nat) := by
    push_cast
    unfold significandOf
    linarith
  exact Nat.lt_succ_iff.mp (by exact_mod_cast hnext)

theorem le_significandOf (hden : 0 < den)
    (hfull : (2 : ℚ) ^ (exponentFor num den + 52) ≤ num / den) :
    leadingBit ≤ significandOf num den := by
  have hhalf := (inUnits_near num hden (exponentFor num den)).2
  have hunit := two_pow_pos (exponentFor num den)
  rw [add_comm, zpow_add₀ (by norm_num), ← leadingBit_eq] at hfull
  have hless : (leadingBit : ℚ) ≤ inUnits num den (exponentFor num den) + 1 / 2 :=
    le_of_mul_le_mul_right (hfull.trans hhalf) hunit
  have hnext : (leadingBit : ℚ) < (significandOf num den + 1 : Nat) := by
    push_cast
    unfold significandOf
    linarith
  exact Nat.lt_succ_iff.mp (by exact_mod_cast hnext)

theorem roundedSize_near (num : Nat) (hden : 0 < den) :
    |roundedSize num den - num / den| ≤ 2 ^ (exponentFor num den - 1) := by
  obtain ⟨hbelow, habove⟩ := inUnits_near num hden (exponentFor num den)
  have hhalf : (2 : ℚ) ^ exponentFor num den = 2 * 2 ^ (exponentFor num den - 1) := by
    rw [← zpow_one_add₀ (by norm_num)]
    congr 1
    omega
  unfold roundedSize significandOf
  rw [hhalf] at hbelow habove ⊢
  rw [abs_le]
  constructor <;> linarith

theorem exponentFor_mono (hnum : 0 < num) (hden : 0 < den) (hmore : 0 < more) (hother : 0 < other)
    (h : (num / den : ℚ) ≤ more / other) : exponentFor num den ≤ exponentFor more other := by
  obtain ⟨-, -, hfull⟩ := exponentFor_spec hnum hden
  obtain ⟨hleast, hfits, -⟩ := exponentFor_spec hmore hother
  rcases hfull with hfull | hsmallest
  · have hpowers : (2 : ℚ) ^ (exponentFor num den + 52) < 2 ^ (exponentFor more other + 53) :=
      (hfull.trans h).trans_lt hfits
    have hless := (zpow_lt_zpow_iff_right₀ (by norm_num)).mp hpowers
    omega
  · omega

theorem roundedSize_mono (hnum : 0 < num) (hden : 0 < den) (hmore : 0 < more) (hother : 0 < other)
    (h : (num / den : ℚ) < more / other) : roundedSize num den ≤ roundedSize more other := by
  have hunit := two_pow_pos (exponentFor more other)
  unfold roundedSize
  rcases (exponentFor_mono hnum hden hmore hother h.le).lt_or_eq with hless | hsame
  · -- The power of two between them is the largest for one and the smallest for the other.
    have hupper : (significandOf num den : ℚ) ≤ 2 ^ (53 : Int) := by
      rw [← significandEnd_eq]
      exact_mod_cast significandOf_le hnum hden
    have hlower : (2 : ℚ) ^ (52 : Int) ≤ significandOf more other := by
      obtain ⟨-, -, hfull⟩ := exponentFor_spec hmore hother
      have hleast := (exponentFor_spec hnum hden).1
      rw [← leadingBit_eq]
      exact_mod_cast le_significandOf hother (hfull.resolve_right (by omega))
    calc (significandOf num den : ℚ) * 2 ^ exponentFor num den
        ≤ 2 ^ (53 : Int) * 2 ^ exponentFor num den :=
          mul_le_mul_of_nonneg_right hupper (two_pow_pos _).le
      _ = 2 ^ (53 + exponentFor num den) := by rw [← zpow_add₀ (by norm_num)]
      _ ≤ 2 ^ (52 + exponentFor more other) := zpow_le_zpow_right₀ (by norm_num) (by omega)
      _ = 2 ^ (52 : Int) * 2 ^ exponentFor more other := by rw [← zpow_add₀ (by norm_num)]
      _ ≤ significandOf more other * 2 ^ exponentFor more other :=
          mul_le_mul_of_nonneg_right hlower hunit.le
  · -- Half a unit from either side leaves less than one unit between them.
    have hbelow := (inUnits_near num hden (exponentFor num den)).1
    have habove := (inUnits_near more hother (exponentFor more other)).2
    rw [hsame] at hbelow ⊢
    have hnear : (inUnits num den (exponentFor more other) : ℚ) - 1 / 2 <
        inUnits more other (exponentFor more other) + 1 / 2 :=
      lt_of_mul_lt_mul_right (hbelow.trans_lt (h.trans_le habove)) hunit.le
    have hunits : (significandOf num den : ℚ) < (significandOf more other + 1 : Nat) := by
      unfold significandOf
      rw [hsame]
      push_cast
      linarith
    refine mul_le_mul_of_nonneg_right ?_ hunit.le
    exact_mod_cast Nat.lt_succ_iff.mp (by exact_mod_cast hunits)

/-- The double nearest to a fraction has its rounded size, unless it is too large for a double. -/
theorem nearest_value (hnum : 0 < num) (hfinite : (nearest negative num den).isFinite = true) :
    (nearest negative num den).value = (if negative then -1 else 1) * roundedSize num den := by
  unfold nearest at hfinite ⊢
  rw [if_neg hnum.ne'] at hfinite ⊢
  unfold roundedSize significandOf
  generalize exponentFor num den = e at hfinite ⊢
  dsimp only at hfinite ⊢
  by_cases hcarry : inUnits num den e = significandEnd
  · -- All bits and one more are the leading bit of the next exponent.
    rw [if_pos hcarry] at hfinite ⊢
    dsimp only at hfinite ⊢
    split at hfinite
    · cases hfinite
    · rw [if_neg ‹_›, value, hcarry, significandEnd_eq, leadingBit_eq, ← zpow_add₀ (by norm_num),
        ← zpow_add₀ (by norm_num)]
      congr 2
      omega
  · rw [if_neg hcarry] at hfinite ⊢
    dsimp only at hfinite ⊢
    split at hfinite
    · cases hfinite
    · rw [if_neg ‹_›, value]

theorem nearest_finite (hden : 0 < den) (h : (num / den : ℚ) < 2 ^ (1000 : Int)) :
    (nearest negative num den).isFinite = true := by
  unfold nearest
  rcases Nat.eq_zero_or_pos num with rfl | hnum
  · rfl
  · rw [if_neg hnum.ne']
    obtain ⟨-, -, hfull⟩ := exponentFor_spec hnum hden
    have hsmall : exponentFor num den + 1 ≤ maxExponent := by
      rcases hfull with hfull | hleast
      · have := (zpow_lt_zpow_iff_right₀ (by norm_num)).mp (hfull.trans_lt h)
        unfold maxExponent
        omega
      · rw [hleast]
        decide
    dsimp only
    split
    · dsimp only
      rw [if_neg (by omega)]
      rfl
    · dsimp only
      rw [if_neg (by omega)]
      rfl

theorem ofInt_finite {n : Int} (h : n.natAbs ≤ 2 ^ 64) : (ofInt n).isFinite = true := by
  refine nearest_finite Nat.one_pos ?_
  have hcast : (n.natAbs : ℚ) ≤ 2 ^ (64 : Int) := by exact_mod_cast h
  rw [Nat.cast_one, div_one]
  exact hcast.trans_lt (zpow_lt_zpow_right₀ (by norm_num) (by norm_num))

theorem roundedSize_nonneg (num den : Nat) : 0 ≤ roundedSize num den :=
  mul_nonneg (Nat.cast_nonneg _) (two_pow_pos _).le

theorem ofInt_value (hfinite : (ofInt a).isFinite = true) : (ofInt a).value =
    if a = 0 then 0 else (if a < 0 then -1 else 1) * roundedSize a.natAbs 1 := by
  by_cases hzero : a = 0
  · subst hzero
    simp [ofInt, nearest, zero, value]
  · rw [if_neg hzero]
    unfold ofInt at hfinite ⊢
    rw [nearest_value (Int.natAbs_pos.mpr hzero) hfinite]
    simp only [decide_eq_true_eq]

theorem ofInt_mono (ha : (ofInt a).isFinite = true) (hb : (ofInt b).isFinite = true) (h : a ≤ b) :
    (ofInt a).value ≤ (ofInt b).value := by
  have hsize : ∀ m n : Nat, 0 < m → m < n → roundedSize m 1 ≤ roundedSize n 1 := by
    intro m n hm hn
    refine roundedSize_mono hm Nat.one_pos (hm.trans hn) Nat.one_pos ?_
    rw [Nat.cast_one, div_one, div_one]
    exact_mod_cast hn
  rcases h.lt_or_eq with hless | rfl
  · have hsmall := roundedSize_nonneg a.natAbs 1
    have hlarge := roundedSize_nonneg b.natAbs 1
    rw [ofInt_value ha, ofInt_value hb]
    rcases lt_trichotomy a 0 with hneg | rfl | hpos
    · rw [if_neg hneg.ne, if_pos hneg]
      rcases lt_trichotomy b 0 with hneg' | rfl | hpos'
      · rw [if_neg hneg'.ne, if_pos hneg']
        have := hsize b.natAbs a.natAbs (by omega) (by omega)
        linarith
      · rw [if_pos rfl]
        linarith
      · rw [if_neg hpos'.ne', if_neg hpos'.not_gt]
        linarith
    · rw [if_pos rfl, if_neg hless.ne', if_neg hless.not_gt]
      linarith
    · rw [if_neg hpos.ne', if_neg hpos.not_gt, if_neg (hpos.trans hless).ne',
        if_neg (hpos.trans hless).not_gt]
      have := hsize a.natAbs b.natAbs (by omega) (by omega)
      linarith
  · exact le_refl _

/-- The double nearest to a signed word of 64 bits is at most 2^9 away from it. -/
theorem ofInt_near (h : a.natAbs < 2 ^ 63) : |(ofInt a).value - a| ≤ 2 ^ 9 := by
  rw [ofInt_value (ofInt_finite (by omega))]
  by_cases hzero : a = 0
  · simp [hzero]
  · rw [if_neg hzero]
    have hpos : 0 < a.natAbs := Int.natAbs_pos.mpr hzero
    have hsize : (a.natAbs : ℚ) < 2 ^ (63 : Int) := by exact_mod_cast h
    have hexponent : exponentFor a.natAbs 1 - 1 ≤ 9 := by
      obtain ⟨-, -, hfull⟩ := exponentFor_spec hpos Nat.one_pos
      rcases hfull with hfull | hleast
      · rw [Nat.cast_one, div_one] at hfull
        have := (zpow_lt_zpow_iff_right₀ (by norm_num)).mp (hfull.trans_lt hsize)
        omega
      · rw [hleast]
        decide
    have hnear : |roundedSize a.natAbs 1 - a.natAbs| ≤ 2 ^ 9 := by
      have hunit := roundedSize_near a.natAbs Nat.one_pos
      rw [Nat.cast_one, div_one] at hunit
      calc |roundedSize a.natAbs 1 - a.natAbs| ≤ 2 ^ (exponentFor a.natAbs 1 - 1) := hunit
        _ ≤ 2 ^ (9 : Int) := zpow_le_zpow_right₀ (by norm_num) hexponent
        _ = 2 ^ 9 := by norm_num
    rw [Nat.cast_natAbs, Int.cast_abs] at hnear
    rcases lt_or_gt_of_ne hzero with hneg | hpos
    · have hcast : (a : ℚ) < 0 := by exact_mod_cast hneg
      rw [if_pos hneg, ← abs_neg]
      rw [abs_of_neg hcast] at hnear
      convert hnear using 2
      ring
    · have hcast : (0 : ℚ) < a := by exact_mod_cast hpos
      rw [if_neg hpos.not_gt, one_mul]
      rwa [abs_of_pos hcast] at hnear

end SchemaBeans.Binary64
