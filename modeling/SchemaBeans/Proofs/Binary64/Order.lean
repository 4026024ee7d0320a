import SchemaBeans.Proofs.Binary64.Rounding

/-! # The order of doubles

Finite doubles are ordered as the fractions that they are, and an integer of up to 53 bits is a
double. -/
namespace SchemaBeans.Binary64

variable {a b : Binary64} {m : Nat} {e : Int}

/-- The fraction that a finite double is. -/
def value : Binary64 → ℚ
  | .finite negative m e => (if negative then -1 else 1) * (m * 2 ^ e)
  | _ => 0

theorem unitsAt_mul (negative : Bool) (m : Nat) {unit own : Int} (h : unit ≤ own) :
    (unitsAt unit negative m own : ℚ) * 2 ^ unit = value (.finite negative m own) := by
  have hscale : (scaleUp (own - unit) : ℚ) * 2 ^ unit = 2 ^ own := by
    have hdown : scaleDown (own - unit) = 1 := by
      rw [scaleDown, Nat.one_shiftLeft, show (-(own - unit)).toNat = 0 by omega, Nat.pow_zero]
    rw [scaleUp_eq, hdown, Nat.cast_one, mul_one, ← zpow_add₀ (by norm_num), sub_add_cancel]
  unfold unitsAt value
  cases negative <;> push_cast <;> simp only [← hscale] <;> push_cast <;> ring

theorem compare?_finite {s t : Bool} {n : Nat} {f : Int} :
    ∃ x y : Int, compare? (.finite s m e) (.finite t n f) = some (compare x y) ∧
      (x < y ↔ value (.finite s m e) < value (.finite t n f)) ∧
      (x = y ↔ value (.finite s m e) = value (.finite t n f)) := by
  have hunit := two_pow_pos (min e f)
  refine ⟨_, _, rfl, ?_, ?_⟩
  · rw [← unitsAt_mul s m (min_le_left e f), ← unitsAt_mul t n (min_le_right e f),
      mul_lt_mul_iff_left₀ hunit, Int.cast_lt]
  · rw [← unitsAt_mul s m (min_le_left e f), ← unitsAt_mul t n (min_le_right e f),
      mul_left_inj' hunit.ne', Int.cast_inj]

theorem lt_iff (ha : a.isFinite = true) (hb : b.isFinite = true) :
    a.lt b = true ↔ a.value < b.value := by
  cases a with
  | finite s m e =>
    cases b with
    | finite t n f =>
      obtain ⟨x, y, hcompare, hless, -⟩ := @compare?_finite m e s t n f
      rw [lt, hcompare, beq_iff_eq, Option.some.injEq, compare_lt_iff_lt, hless]
    | _ => cases hb
  | _ => cases ha

theorem le_iff (ha : a.isFinite = true) (hb : b.isFinite = true) :
    a.le b = true ↔ a.value ≤ b.value := by
  cases a with
  | finite s m e =>
    cases b with
    | finite t n f =>
      obtain ⟨x, y, hcompare, hless, hsame⟩ := @compare?_finite m e s t n f
      rw [le, lt, hcompare, Bool.or_eq_true, beq_iff_eq, beq_iff_eq, Option.some.injEq,
        Option.some.injEq, compare_lt_iff_lt, compare_eq_iff_eq, hless, hsame, le_iff_lt_or_eq]
    | _ => cases hb
  | _ => cases ha

theorem near_self (hm : 0 < m) : Near m e (m * 2 ^ e) := by
  have hunit := two_pow_pos (e - 2)
  rw [quarter e]
  refine ⟨?_, ?_, fun h => ?_⟩
  · rw [interval_low hm]
    split <;> linarith
  · rw [interval_high]
    linarith
  · exfalso
    rw [interval_low hm, interval_high] at h
    rcases h with h | h
    · split at h <;> linarith
    · linarith

theorem exists_canonical {n : Nat} (hn : 0 < n) (hmost : n ≤ significandEnd) :
    ∃ m e, Canonical m e ∧ 0 < m ∧ (m : ℚ) * 2 ^ e = n := by
  have hsignificand : significandEnd = 2 ^ 53 := rfl
  have hleading : leadingBit = 2 ^ 52 := rfl
  rcases Nat.lt_or_eq_of_le hmost with hless | rfl
  · have hself := Nat.log2_self_le hn.ne'
    have hnext := Nat.lt_log2_self (n := n)
    have hlog : n.log2 < 53 := (Nat.log2_lt hn.ne').mpr (hsignificand ▸ hless)
    refine ⟨n * 2 ^ (52 - n.log2), n.log2 - 52, ⟨?_, ?_, ?_, .inl ?_⟩, by positivity, ?_⟩
    · calc n * 2 ^ (52 - n.log2) < 2 ^ (n.log2 + 1) * 2 ^ (52 - n.log2) :=
            Nat.mul_lt_mul_of_pos_right hnext (Nat.two_pow_pos _)
        _ = significandEnd := by
            rw [← Nat.pow_add, show n.log2 + 1 + (52 - n.log2) = 53 by omega, hsignificand]
    · unfold minExponent
      omega
    · unfold maxExponent
      omega
    · calc leadingBit = 2 ^ n.log2 * 2 ^ (52 - n.log2) := by
            rw [← Nat.pow_add, show n.log2 + (52 - n.log2) = 52 by omega, hleading]
        _ ≤ n * 2 ^ (52 - n.log2) := Nat.mul_le_mul_right _ hself
    · push_cast
      rw [mul_assoc, ← zpow_natCast, ← zpow_add₀ (by norm_num),
        show ((52 - n.log2 : Nat) : Int) + (n.log2 - 52) = 0 by omega, zpow_zero, mul_one]
  · refine ⟨leadingBit, 1, ⟨by decide, by decide, by decide, .inl (Nat.le_refl _)⟩, by decide, ?_⟩
    rw [significandEnd_eq, leadingBit_eq]
    norm_num

theorem ofInt_exact {n : Int} (h : n.natAbs ≤ significandEnd) :
    (ofInt n).isFinite = true ∧ (ofInt n).value = n := by
  unfold ofInt
  rcases Nat.eq_zero_or_pos n.natAbs with hzero | hpos
  · rw [Int.natAbs_eq_zero.mp hzero]
    exact ⟨rfl, by simp [nearest, zero, value]⟩
  · obtain ⟨m, e, hcanonical, hm, hvalue⟩ := exists_canonical hpos h
    have hnear : Near m e ((n.natAbs : ℚ) / (1 : Nat)) := by
      rw [Nat.cast_one, div_one, ← hvalue]
      exact near_self hm
    rw [nearest_of_near hcanonical hm hpos Nat.one_pos hnear]
    refine ⟨rfl, ?_⟩
    have habs : (n.natAbs : ℚ) = |(n : ℚ)| := by
      rw [Nat.cast_natAbs, Int.cast_abs]
    simp only [value, hvalue, habs]
    by_cases hneg : n < 0
    · have hcast : (n : ℚ) < 0 := by exact_mod_cast hneg
      simp [hneg, abs_of_neg hcast]
    · have hcast : (0 : ℚ) ≤ n := by exact_mod_cast not_lt.mp hneg
      simp [hneg, abs_of_nonneg hcast]

end SchemaBeans.Binary64
