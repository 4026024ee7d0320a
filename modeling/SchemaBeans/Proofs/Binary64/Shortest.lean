import SchemaBeans.Proofs.Binary64.Rounding

/-! # Shortest decimals

The search for the digits of a double comes to a decimal in the interval of the double before it has
tried all its grids, and every decimal in the interval is rounded back to the double. -/
namespace SchemaBeans.Binary64

variable {m d : Nat} {e p : Int}

theorem tenUp_pos (n : Int) : 0 < tenUp n := Nat.pow_pos (by decide)

theorem tenDown_pos (n : Int) : 0 < tenDown n := Nat.pow_pos (by decide)

theorem tenUp_eq (n : Int) : (tenUp n : ℚ) = 10 ^ n * tenDown n := by
  rw [tenUp, tenDown, Nat.pow_eq, Nat.pow_eq]
  push_cast
  rw [← zpow_natCast, ← zpow_natCast, ← zpow_add₀ (by norm_num)]
  congr 1
  omega

theorem ten_pow_pos (n : Int) : (0 : ℚ) < 10 ^ n := by positivity

theorem ten_pow_lt {a b : Int} : (10 : ℚ) ^ a < 10 ^ b ↔ a < b :=
  zpow_lt_zpow_iff_right₀ (by norm_num)

/-- The fraction that a decimal is. -/
def Decimal.value (d : Decimal) : ℚ := d.digits * 10 ^ d.exponent

theorem step_spec (m : Nat) (e p : Int) : ∃ unit : ℚ, 0 < unit ∧
    (((interval m e).step p).1 : ℚ) = 2 ^ (e - 2) * unit ∧
    (((interval m e).step p).2 : ℚ) = 10 ^ p * unit := by
  have hdown : (0 : ℚ) < scaleDown (e - 2) := by exact_mod_cast scaleDown_pos _
  have hten : (0 : ℚ) < tenDown p := by exact_mod_cast tenDown_pos _
  refine ⟨scaleDown (e - 2) * tenDown p, mul_pos hdown hten, ?_, ?_⟩
  · simp only [Interval.step, interval]
    push_cast
    rw [scaleUp_eq]
    ring
  · simp only [Interval.step, interval]
    push_cast
    rw [tenUp_eq]
    ring

theorem holds_iff : (interval m e).holds p d = true ↔ Near m e (d * 10 ^ p) := by
  obtain ⟨unit, hunit, hnum, hden⟩ := step_spec m e p
  have hlow : (interval m e).low * ((interval m e).step p).1 ≤ d * ((interval m e).step p).2 ↔
      (interval m e).low * (2 : ℚ) ^ (e - 2) ≤ d * 10 ^ p := by
    rw [← Nat.cast_le (α := ℚ), Nat.cast_mul, Nat.cast_mul, hnum, hden, ← mul_assoc, ← mul_assoc,
      mul_le_mul_iff_left₀ hunit]
  have hhigh : d * ((interval m e).step p).2 ≤ (interval m e).high * ((interval m e).step p).1 ↔
      d * 10 ^ p ≤ (interval m e).high * (2 : ℚ) ^ (e - 2) := by
    rw [← Nat.cast_le (α := ℚ), Nat.cast_mul, Nat.cast_mul, hnum, hden, ← mul_assoc, ← mul_assoc,
      mul_le_mul_iff_left₀ hunit]
  have hlow' : (interval m e).low * ((interval m e).step p).1 < d * ((interval m e).step p).2 ↔
      (interval m e).low * (2 : ℚ) ^ (e - 2) < d * 10 ^ p := by
    rw [← Nat.cast_lt (α := ℚ), Nat.cast_mul, Nat.cast_mul, hnum, hden, ← mul_assoc, ← mul_assoc,
      mul_lt_mul_iff_left₀ hunit]
  have hhigh' : d * ((interval m e).step p).2 < (interval m e).high * ((interval m e).step p).1 ↔
      d * 10 ^ p < (interval m e).high * (2 : ℚ) ^ (e - 2) := by
    rw [← Nat.cast_lt (α := ℚ), Nat.cast_mul, Nat.cast_mul, hnum, hden, ← mul_assoc, ← mul_assoc,
      mul_lt_mul_iff_left₀ hunit]
  have hclosed : (interval m e).closed = true ↔ m % 2 = 0 := by
    simp only [interval, beq_iff_eq]
  unfold Interval.holds
  dsimp only
  by_cases heven : m % 2 = 0
  · rw [if_pos (hclosed.mpr heven), Bool.and_eq_true, decide_eq_true_eq, decide_eq_true_eq, hlow,
      hhigh]
    exact ⟨fun h => ⟨h.1, h.2, fun _ => heven⟩, fun h => ⟨h.low, h.high⟩⟩
  · rw [if_neg (mt hclosed.mp heven), Bool.and_eq_true, decide_eq_true_eq, decide_eq_true_eq, hlow',
      hhigh']
    refine ⟨fun h => ⟨h.1.le, h.2.le, fun hends => ?_⟩, fun h => ⟨?_, ?_⟩⟩
    · exact absurd hends (by rw [not_or]; exact ⟨h.1.ne', h.2.ne⟩)
    · exact lt_of_le_of_ne h.low fun heq => heven (h.even (.inl heq.symm))
    · exact lt_of_le_of_ne h.high fun heq => heven (h.even (.inr heq))

theorem onGrid_holds {i : Interval} (h : i.onGrid p = some d) : i.holds p d = true := by
  unfold Interval.onGrid at h
  dsimp only at h
  split at h
  · cases h
    assumption
  · split at h
    · cases h
      assumption
    · split at h
      · cases h
        assumption
      · cases h

theorem roundHalfEven_near (num : Nat) {den : Nat} (hden : 0 < den) :
    2 * (roundHalfEven num den * den) ≤ 2 * num + den ∧
      2 * num ≤ 2 * (roundHalfEven num den * den) + den := by
  have hsplit : num / den * den + num % den = num := by
    rw [Nat.mul_comm]
    exact Nat.div_add_mod num den
  have hrest : num % den < den := Nat.mod_lt num hden
  unfold roundHalfEven
  dsimp only
  generalize num / den = q at hsplit ⊢
  generalize num % den = r at hsplit hrest ⊢
  have hnext : (q + 1) * den = q * den + den := by ring
  split <;> omega

/-- A grid finer than half a unit has a point in the interval. -/
theorem onGrid_fine (hm : 0 < m) (hfine : (10 : ℚ) ^ p < 2 ^ (e - 1)) :
    ∃ d, 0 < d ∧ (interval m e).onGrid p = some d := by
  obtain ⟨unit, hunit, hnum, hden⟩ := step_spec m e p
  have hten := ten_pow_pos p
  have hquarter := two_pow_pos (e - 2)
  have hhalf : (2 : ℚ) ^ (e - 1) = 2 * 2 ^ (e - 2) := by
    rw [show e - 1 = (e - 2) + 1 by omega, zpow_add₀ (by norm_num)]
    ring
  have hpositive : 0 < ((interval m e).step p).2 := by
    rw [← Nat.cast_pos (α := ℚ), hden]
    exact mul_pos hten hunit
  obtain ⟨hbelow, habove⟩ :=
    roundHalfEven_near ((interval m e).value * ((interval m e).step p).1) hpositive
  generalize hd : roundHalfEven ((interval m e).value * ((interval m e).step p).1)
    ((interval m e).step p).2 = d at hbelow habove
  have hvalue : ((interval m e).value : ℚ) = 4 * m := by
    simp [interval]
  -- In units of the grid the two inequalities say how far the point is from the double.
  rw [← Nat.cast_le (α := ℚ)] at hbelow habove
  push_cast at hbelow habove
  rw [hvalue, hnum, hden] at hbelow habove
  have hbelow' : 2 * (d * 10 ^ p) ≤ 2 * (4 * m * 2 ^ (e - 2)) + (10 : ℚ) ^ p := by
    refine le_of_mul_le_mul_right ?_ hunit
    linarith
  have habove' : 2 * (4 * m * 2 ^ (e - 2)) ≤ 2 * (d * 10 ^ p) + (10 : ℚ) ^ p := by
    refine le_of_mul_le_mul_right ?_ hunit
    linarith
  have hleast : (1 : ℚ) ≤ m := by exact_mod_cast hm
  have hroom : 4 * (2 : ℚ) ^ (e - 2) ≤ 4 * m * 2 ^ (e - 2) := by
    refine mul_le_mul_of_nonneg_right ?_ hquarter.le
    linarith
  have hnear : Near m e (d * 10 ^ p) := by
    refine ⟨?_, ?_, fun hends => ?_⟩
    · rw [interval_low hm]
      split <;> linarith
    · rw [interval_high]
      linarith
    · exfalso
      rw [interval_low hm, interval_high] at hends
      rcases hends with hend | hend
      · split at hend <;> linarith
      · linarith
  refine ⟨d, Nat.pos_of_ne_zero fun hzero => ?_, ?_⟩
  · rw [hzero] at habove'
    push_cast at habove'
    linarith
  · unfold Interval.onGrid
    dsimp only
    rw [hd, if_pos (holds_iff.mpr hnear)]

theorem Interval.shortest_holds {i : Interval} : ∀ {fuel n : Nat} {p : Int}, n < fuel →
    (∃ d, 0 < d ∧ i.onGrid (p - n) = some d) → 0 < (i.shortest fuel p).digits ∧
      i.holds (i.shortest fuel p).exponent (i.shortest fuel p).digits = true := by
  intro fuel
  induction fuel with
  | zero => exact fun h => absurd h (Nat.not_lt_zero _)
  | succ fuel ih =>
    rintro n p hn ⟨point, hpoint, hgrid⟩
    -- A grid without a point is not the one that the hypothesis is about.
    have hnext : (∀ d, 0 < d → i.onGrid p ≠ some d) → 0 < (i.shortest fuel (p - 1)).digits ∧
        i.holds (i.shortest fuel (p - 1)).exponent (i.shortest fuel (p - 1)).digits = true := by
      intro hnone
      cases n with
      | zero =>
        rw [Nat.cast_zero, sub_zero] at hgrid
        exact absurd hgrid (hnone point hpoint)
      | succ n =>
        refine ih (Nat.lt_of_succ_lt_succ hn) ⟨point, hpoint, ?_⟩
        rw [← hgrid]
        congr 1
        push_cast
        ring
    unfold Interval.shortest
    cases hfound : i.onGrid p with
    | none =>
      simp only
      exact hnext fun d _ h => by simp [hfound] at h
    | some d =>
      simp only
      split
      · refine hnext fun other hother h => ?_
        rw [hfound] at h
        cases h
        omega
      · exact ⟨Nat.pos_of_ne_zero ‹_›, onGrid_holds hfound⟩

/-- Powers of ten next to powers of two. The estimates of the logarithm are good enough for the
exponents of doubles. -/
theorem ten_pow_le {k : Int} (hlow : -1100 ≤ k) (hhigh : k ≤ 1100) :
    (10 : ℚ) ^ (k * 30103 / 100000) ≤ 2 ^ (k + 1) := by
  obtain ⟨f, hf, hquotient, hnext⟩ : ∃ f : Int, k * 30103 / 100000 = f ∧ f * 100000 ≤ k * 30103 ∧
      k * 30103 < (f + 1) * 100000 := ⟨_, rfl, by omega, by omega⟩
  rw [hf]
  rcases lt_or_ge f 0 with hneg | hpos
  · obtain ⟨n, rfl⟩ : ∃ n : Nat, f = -n := ⟨f.natAbs, by omega⟩
    obtain ⟨l, hl⟩ : ∃ l : Nat, k + 1 = -l := ⟨(k + 1).natAbs, by omega⟩
    rw [hl, zpow_neg, zpow_neg, zpow_natCast, zpow_natCast]
    refine inv_anti₀ (by positivity)
      (le_of_pow_le_pow_left₀ (n := 28) (by decide) (by positivity) ?_)
    calc ((2 : ℚ) ^ l) ^ 28 = 2 ^ (l * 28) := by rw [pow_mul]
      _ ≤ 2 ^ (93 * n) := pow_le_pow_right₀ (by norm_num) (by omega)
      _ = (2 ^ 93) ^ n := by rw [pow_mul]
      _ ≤ (10 ^ 28) ^ n := pow_le_pow_left₀ (by norm_num) (by norm_num) n
      _ = (10 ^ n) ^ 28 := by rw [← pow_mul, ← pow_mul, mul_comm]
  · obtain ⟨n, rfl⟩ : ∃ n : Nat, f = n := ⟨f.natAbs, by omega⟩
    obtain ⟨l, hl⟩ : ∃ l : Nat, k + 1 = l := ⟨(k + 1).natAbs, by omega⟩
    rw [hl, zpow_natCast, zpow_natCast]
    refine le_of_pow_le_pow_left₀ (n := 59) (by decide) (by positivity) ?_
    calc ((10 : ℚ) ^ n) ^ 59 = (10 ^ 59) ^ n := by rw [← pow_mul, ← pow_mul, mul_comm]
      _ ≤ (2 ^ 196) ^ n := pow_le_pow_left₀ (by norm_num) (by norm_num) n
      _ = 2 ^ (196 * n) := by rw [pow_mul]
      _ ≤ 2 ^ (l * 59) := pow_le_pow_right₀ (by norm_num) (by omega)
      _ = (2 ^ l) ^ 59 := by rw [pow_mul]

theorem last_grid (hc : Canonical m e) (hm : 0 < m) :
    (10 : ℚ) ^ (decimalBound m e - (23 : Nat)) < 2 ^ (e - 1) := by
  have hlog : m.log2 < 53 := (Nat.log2_lt hm.ne').mpr hc.below
  have hleast := hc.least
  have hmost := hc.most
  unfold minExponent at hleast
  unfold maxExponent at hmost
  have hbound := ten_pow_le (k := (m.log2 : Int) + e + 1) (by omega) (by omega)
  have hsmall : (10 : ℚ) ^ (-21 : Int) < 2 ^ (-69 : Int) := by norm_num
  unfold decimalBound
  calc (10 : ℚ) ^ (((m.log2 : Int) + e + 1) * 30103 / 100000 + 2 - (23 : Nat))
      = 10 ^ (((m.log2 : Int) + e + 1) * 30103 / 100000) * 10 ^ (-21 : Int) := by
        rw [← zpow_add₀ (by norm_num)]
        congr 1
        omega
    _ < 2 ^ ((m.log2 : Int) + e + 1 + 1) * 2 ^ (-69 : Int) :=
        mul_lt_mul' hbound hsmall (ten_pow_pos _).le (two_pow_pos _)
    _ = 2 ^ ((m.log2 : Int) + e + 1 + 1 + -69) := by rw [← zpow_add₀ (by norm_num)]
    _ ≤ 2 ^ (e - 1) := zpow_le_zpow_right₀ (by norm_num) (by omega)

theorem shortest_near (hc : Canonical m e) (hm : 0 < m) :
    0 < (shortest m e).digits ∧ Near m e (shortest m e).value := by
  obtain ⟨hpos, hholds⟩ := @Interval.shortest_holds (interval m e) 24 23 _ (by decide)
    (onGrid_fine hm (last_grid hc hm))
  exact ⟨hpos, holds_iff.mp hholds⟩

theorem digits_bounds {n : Nat} (hn : 0 < n) :
    (10 : ℚ) ^ (((toString n).length : Int) - 1) ≤ n ∧ (n : ℚ) <
    10 ^ ((toString n).length : Int) := by
  have hlength : (toString n).length = (Nat.toDigits 10 n).length := by
    rw [Nat.toString_eq_repr, ← String.length_toList, Nat.toList_repr]
  have hpos : 0 < (Nat.toDigits 10 n).length := Nat.length_toDigits_pos
  rw [hlength]
  constructor
  · rw [show ((Nat.toDigits 10 n).length : Int) - 1 =
      ((Nat.toDigits 10 n).length - 1 : Nat) by omega,
      zpow_natCast]
    rcases Nat.eq_zero_or_pos ((Nat.toDigits 10 n).length - 1) with hone | hmore
    · rw [hone, pow_zero]
      exact_mod_cast hn
    · have hnot := mt (Nat.length_toDigits_le_iff (b := 10) (n := n) (by decide) hmore).mpr
        (by omega)
      exact_mod_cast Nat.le_of_not_lt hnot
  · rw [zpow_natCast]
    exact_mod_cast (Nat.length_toDigits_le_iff (by decide) hpos).mp le_rfl

theorem smallest_bound : (2 : ℚ) ^ (1075 : Int) < 10 ^ (330 : Int) := by
  have h : 2 ^ 1075 < 10 ^ 330 := by decide +kernel
  exact_mod_cast h

theorem largest_bound : (2 : ℚ) ^ (1024 : Int) < 10 ^ (309 : Int) := by
  have h : 2 ^ 1024 < 10 ^ 309 := by decide +kernel
  exact_mod_cast h

theorem Decimal.value_bounds {decimal : Decimal} (h : 0 < decimal.digits) :
    (10 : ℚ) ^ (((toString decimal.digits).length : Int) + decimal.exponent - 1) ≤ decimal.value ∧
      decimal.value < 10 ^ (((toString decimal.digits).length : Int) + decimal.exponent) := by
  obtain ⟨hfirst, hnext⟩ := digits_bounds h
  have hten := ten_pow_pos decimal.exponent
  rw [add_sub_right_comm, zpow_add₀ (by norm_num), zpow_add₀ (by norm_num), Decimal.value]
  exact ⟨mul_le_mul_of_nonneg_right hfirst hten.le, mul_lt_mul_of_pos_right hnext hten⟩

/-- What is near a double is neither taken for zero nor for an infinity. -/
theorem Near.bounds {x : ℚ} (h : Near m e x) (hc : Canonical m e) (hm : 0 < m) :
    (10 : ℚ) ^ (-330 : Int) < x ∧ x < 10 ^ (309 : Int) := by
  obtain ⟨hlow, hhigh, -⟩ := h.half hm
  have hunit := two_pow_pos e
  constructor
  · have hleast : (1 : ℚ) ≤ m := by exact_mod_cast hm
    calc (10 : ℚ) ^ (-330 : Int) < 2 ^ (-1075 : Int) := by
          rw [zpow_neg, zpow_neg]
          exact inv_strictAnti₀ (two_pow_pos _) smallest_bound
      _ ≤ 2 ^ (e - 1) :=
          zpow_le_zpow_right₀ (by norm_num) (by have := hc.least; unfold minExponent at this; omega)
      _ = 1 / 2 * 2 ^ e := by rw [zpow_sub₀ (by norm_num)]; ring
      _ ≤ ((m : ℚ) - 1 / 2) * 2 ^ e := mul_le_mul_of_nonneg_right (by linarith) hunit.le
      _ ≤ x := hlow
  · have hmost : (m : ℚ) + 1 ≤ 2 ^ (53 : Int) := by
      rw [← significandEnd_eq]
      exact_mod_cast hc.below
    calc x ≤ (m + 1 / 2) * 2 ^ e := hhigh
      _ < 2 ^ (53 : Int) * 2 ^ e := mul_lt_mul_of_pos_right (by linarith) hunit
      _ = 2 ^ (53 + e) := by rw [← zpow_add₀ (by norm_num)]
      _ ≤ 2 ^ (1024 : Int) :=
          zpow_le_zpow_right₀ (by norm_num) (by have := hc.most; unfold maxExponent at this; omega)
      _ < 10 ^ (309 : Int) := largest_bound

theorem ofDecimal_near (hc : Canonical m e) (hm : 0 < m) {decimal : Decimal}
    (h : Near m e decimal.value) (negative : Bool) :
    ofDecimal negative decimal = .finite negative m e := by
  obtain ⟨habove, hbelow⟩ := h.bounds hc hm
  have hdigits : 0 < decimal.digits := by
    rcases Nat.eq_zero_or_pos decimal.digits with hzero | hpos
    · rw [Decimal.value, hzero, Nat.cast_zero, zero_mul] at habove
      exact absurd habove (ten_pow_pos _).not_gt
    · exact hpos
  obtain ⟨hfirst, hnext⟩ := Decimal.value_bounds hdigits
  have hlarge := ten_pow_lt.mp (habove.trans hnext)
  have hsmall := ten_pow_lt.mp (hfirst.trans_lt hbelow)
  unfold ofDecimal
  dsimp only
  rw [if_neg (by omega), if_neg (by omega)]
  refine nearest_of_near hc hm (Nat.mul_pos hdigits (tenUp_pos _)) (tenDown_pos _) ?_ negative
  have hdown : (tenDown decimal.exponent : ℚ) ≠ 0 := by exact_mod_cast (tenDown_pos _).ne'
  have hsame : ((decimal.digits * tenUp decimal.exponent : Nat) : ℚ) / tenDown decimal.exponent =
      decimal.value := by
    push_cast
    rw [tenUp_eq, Decimal.value]
    field_simp
  rw [hsame]
  exact h

end SchemaBeans.Binary64
