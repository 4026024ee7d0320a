import SchemaBeans.Proofs.Binary64.Monotone

/-! # Single and double precision

A binary format has the numbers of a few bits times a power of two that is not too small.
Rounding takes a fraction to a number of the format that is as near as any. Whoever rounds to
double precision first still comes as near as possible in single precision: the middle between
two single numbers is a double, so no fraction is rounded across it. -/
namespace SchemaBeans

/-- A binary format, without signs. -/
structure Format where
  precision : Nat
  least : Int
  most : Int
  deriving DecidableEq, Repr

namespace Format

open Binary64 (inUnits inUnits_near two_pow_pos)

variable {f : Format} {x y r : ℚ} {k : Nat} {e : Int}

def single : Format := ⟨24, -149, 104⟩

def double : Format := ⟨53, -1074, 971⟩

def greatest (f : Format) : ℚ := (2 ^ f.precision - 1) * 2 ^ f.most

/-- The fraction is a number of the format, if exponents may be as large as they like. -/
def Spells (f : Format) (x : ℚ) : Prop :=
  ∃ (k : Nat) (e : Int), k < 2 ^ f.precision ∧ f.least ≤ e ∧ x = k * 2 ^ e

structure Holds (f : Format) (x : ℚ) : Prop where
  spells : f.Spells x
  le : x ≤ f.greatest

/-- No number of the format is nearer to the fraction. -/
structure NearestTo (f : Format) (y x : ℚ) : Prop where
  holds : f.Holds y
  nearest : ∀ r, f.Spells r → |y - x| ≤ |r - x|

/-- The exponent of the unit that a fraction is rounded to. -/
def unit (f : Format) (x : ℚ) : Int := max (Int.log 2 x - (f.precision - 1)) f.least

/-- The number of units nearest to a fraction, the even one if two are. -/
def units (f : Format) (x : ℚ) : Nat := inUnits x.num.natAbs x.den (f.unit x)

def round (f : Format) (x : ℚ) : ℚ := f.units x * 2 ^ f.unit x

theorem two_pow_add (a b : Int) : (2 : ℚ) ^ (a + b) = 2 ^ a * 2 ^ b := zpow_add₀ (by norm_num) a b

theorem two_pow_le {a b : Int} (h : a ≤ b) : (2 : ℚ) ^ a ≤ 2 ^ b :=
  zpow_le_zpow_right₀ (by norm_num) h

theorem num_div_den (hx : 0 ≤ x) : (x.num.natAbs / x.den : ℚ) = x := by
  have hnum : (x.num.natAbs : ℚ) = x.num := by
    rw [Nat.cast_natAbs, abs_of_nonneg (Rat.num_nonneg.mpr hx)]
  rw [hnum, Rat.num_div_den]

theorem least_le_unit (f : Format) (x : ℚ) : f.least ≤ f.unit x := le_max_right _ _

theorem lt_two_pow_unit (f : Format) (x : ℚ) : x < 2 ^ (f.unit x + f.precision) := by
  have hlog : x < 2 ^ (Int.log 2 x + 1) := Int.lt_zpow_succ_log_self (by norm_num) x
  refine hlog.trans_le (two_pow_le ?_)
  have := le_max_left (Int.log 2 x - (f.precision - 1)) f.least
  unfold unit
  omega

theorem two_pow_unit_le (f : Format) (hx : 0 < x) :
    2 ^ (f.unit x + (f.precision - 1)) ≤ x ∨ f.unit x = f.least := by
  rcases le_total (Int.log 2 x - (f.precision - 1)) f.least with h | h
  · exact .inr (max_eq_right h)
  · refine .inl ?_
    rw [unit, max_eq_left h, sub_add_cancel]
    exact Int.zpow_log_le_self (by norm_num) hx

theorem round_near (f : Format) (hx : 0 ≤ x) : |f.round x - x| ≤ 2 ^ f.unit x / 2 := by
  obtain ⟨hlow, hhigh⟩ := inUnits_near x.num.natAbs x.pos (f.unit x)
  rw [num_div_den hx] at hlow hhigh
  unfold round units
  rw [abs_le]
  constructor <;> linarith

theorem units_le (f : Format) (hx : 0 < x) : f.units x ≤ 2 ^ f.precision := by
  have hnear := (abs_le.mp (f.round_near hx.le)).2
  have hfits := f.lt_two_pow_unit x
  have hunit := two_pow_pos (f.unit x)
  rw [two_pow_add, zpow_natCast] at hfits
  have hless : ((f.units x : ℚ) - 1 / 2) * 2 ^ f.unit x < 2 ^ f.precision * 2 ^ f.unit x := by
    unfold round at hnear
    linarith
  have hunits : (f.units x : ℚ) < (2 ^ f.precision + 1 : Nat) := by
    have := lt_of_mul_lt_mul_right hless hunit.le
    push_cast
    linarith
  exact Nat.lt_succ_iff.mp (by exact_mod_cast hunits)

theorem spells_round (f : Format) (hp : 0 < f.precision) (hx : 0 < x) : f.Spells (f.round x) := by
  rcases (f.units_le hx).lt_or_eq with hless | hcarry
  · exact ⟨_, _, hless, f.least_le_unit x, rfl⟩
  · -- All bits and one more are the leading bit of the next unit.
    refine ⟨2 ^ (f.precision - 1), f.unit x + 1, ?_, ?_, ?_⟩
    · exact Nat.pow_lt_pow_right (by norm_num) (by omega)
    · have := f.least_le_unit x
      omega
    · rw [round, hcarry, two_pow_add]
      obtain ⟨n, hn⟩ : ∃ n, f.precision = n + 1 := ⟨_, (Nat.succ_pred_eq_of_pos hp).symm⟩
      rw [hn, Nat.add_sub_cancel]
      push_cast
      ring

/-- A number of units at most half a unit away is as near as any number of the format, if the unit
is fine enough for the fraction. -/
theorem nearest_of_half (hp : 0 < f.precision) (hhalf : |k * 2 ^ e - x| ≤ 2 ^ e / 2)
    (hfull : 2 ^ (e + (f.precision - 1)) ≤ x ∨ e = f.least) (hr : f.Spells r) :
    |k * 2 ^ e - x| ≤ |r - x| := by
  have hunit := two_pow_pos e
  -- Another number of the same units is at least half a unit away.
  have hunits : ∀ j : Int, |k * 2 ^ e - x| ≤ |j * 2 ^ e - x| := by
    intro j
    rcases eq_or_ne j k with rfl | hne
    · simp
    · have hone : (1 : ℚ) ≤ |(j : ℚ) - k| := by
        have : 1 ≤ |j - k| := Int.one_le_abs (sub_ne_zero.mpr hne)
        exact_mod_cast this
      have hfar : (2 : ℚ) ^ e ≤ |(j : ℚ) * 2 ^ e - k * 2 ^ e| := by
        rw [← sub_mul, abs_mul, abs_of_pos hunit]
        exact le_mul_of_one_le_left hunit.le hone
      have htriangle := abs_sub_le ((j : ℚ) * 2 ^ e) x ((k : ℚ) * 2 ^ e)
      rw [abs_sub_comm x] at htriangle
      linarith
  obtain ⟨m, n, hm, hn, rfl⟩ := hr
  rcases le_or_gt e n with hle | hgt
  · obtain ⟨d, hd⟩ : ∃ d : Nat, n = d + e := ⟨(n - e).toNat, by omega⟩
    have hsame : (m : ℚ) * 2 ^ n = ((m * 2 ^ d : Nat) : Int) * 2 ^ e := by
      rw [hd, two_pow_add, zpow_natCast]
      push_cast
      ring
    rw [hsame]
    exact hunits _
  · -- A finer number lies below the power of two that the fraction has reached.
    have hreached := hfull.resolve_right (by omega)
    obtain ⟨p, hprecision⟩ : ∃ p, f.precision = p + 1 := ⟨_, (Nat.succ_pred_eq_of_pos hp).symm⟩
    rw [hprecision] at hm hreached
    have hpower : (2 : ℚ) ^ (e + (((p + 1 : Nat) : Int) - 1)) = ((2 ^ p : Nat) : Int) * 2 ^ e := by
      rw [two_pow_add, mul_comm, Nat.cast_succ, add_sub_cancel_right, zpow_natCast]
      push_cast
      ring
    have hbelow : (m : ℚ) * 2 ^ n ≤ ((2 ^ p : Nat) : Int) * 2 ^ e := by
      calc (m : ℚ) * 2 ^ n ≤ 2 ^ (p + 1) * 2 ^ (e - 1) := by
            refine mul_le_mul (by exact_mod_cast hm.le) (two_pow_le (by omega))
              (two_pow_pos n).le (by positivity)
        _ = ((2 ^ p : Nat) : Int) * 2 ^ e := by
            rw [zpow_sub_one₀ (by norm_num)]
            push_cast
            ring
    have hbound := hunits ((2 ^ p : Nat) : Int)
    rw [hpower] at hreached
    rw [abs_of_nonpos (by linarith : (m : ℚ) * 2 ^ n - x ≤ 0)]
    rw [abs_of_nonpos (by linarith : (((2 ^ p : Nat) : Int) : ℚ) * 2 ^ e - x ≤ 0)] at hbound
    linarith

theorem round_nearest (hp : 0 < f.precision) (hx : 0 < x) (hr : f.Spells r) :
    |f.round x - x| ≤ |r - x| :=
  nearest_of_half hp (f.round_near hx.le) (f.two_pow_unit_le hx) hr

theorem round_le (hp : 0 < f.precision) (hx : 0 < x) (hr : f.Spells r) (h : x ≤ r) :
    f.round x ≤ r := by
  have hnearest := round_nearest hp hx hr
  rw [abs_of_nonneg (sub_nonneg.mpr h)] at hnearest
  linarith [le_abs_self (f.round x - x)]

theorem le_round (hp : 0 < f.precision) (hx : 0 < x) (hr : f.Spells r) (h : r ≤ x) :
    r ≤ f.round x := by
  have hnearest := round_nearest hp hx hr
  rw [abs_of_nonpos (sub_nonpos.mpr h)] at hnearest
  linarith [neg_abs_le (f.round x - x)]

theorem round_of_spells (hp : 0 < f.precision) (hx : 0 < x) (h : f.Spells x) : f.round x = x :=
  le_antisymm (round_le hp hx h le_rfl) (le_round hp hx h le_rfl)

theorem round_zero (f : Format) : f.round 0 = 0 := by
  have hunits : f.units 0 = 0 := by
    simp [units, inUnits, Binary64.roundHalfEven, Binary64.scaleUp, Nat.shiftLeft_eq]
  rw [round, hunits, Nat.cast_zero, zero_mul]

theorem le_greatest_of_nearest (hp : f.Spells f.greatest)
    (hy : ∀ r, f.Spells r → |y - x| ≤ |r - x|) (hx : x ≤ f.greatest) : y ≤ f.greatest := by
  have hnearest := hy _ hp
  rw [abs_of_nonneg (sub_nonneg.mpr hx)] at hnearest
  linarith [le_abs_self (y - x)]

theorem nearestTo_round (hp : 0 < f.precision) (hgreatest : f.Spells f.greatest) (hx : 0 ≤ x)
    (hzero : x = 0 → y = 0) (hy : y ≤ f.greatest)
    (hnearest : 0 < x → ∀ r, f.Spells r → |f.round x - y| ≤ |r - y|) : f.NearestTo
    (f.round x) y := by
  rcases hx.eq_or_lt with rfl | hpos
  · rw [hzero rfl] at hy ⊢
    rw [round_zero]
    exact ⟨⟨⟨0, f.least, by positivity, le_rfl, by simp⟩, hy⟩, by simp⟩
  · have hnearest := hnearest hpos
    exact ⟨⟨f.spells_round hp hpos, le_greatest_of_nearest hgreatest hnearest hy⟩, hnearest⟩

theorem double_unit (hx : 0 < x) :
    double.unit x = Binary64.exponentFor x.num.natAbs x.den := by
  have hnum : 0 < x.num.natAbs := Int.natAbs_pos.mpr (Rat.num_pos.mpr hx).ne'
  obtain ⟨hleast, hfits, hfull⟩ := Binary64.exponentFor_spec hnum x.pos
  rw [num_div_den hx.le] at hfits hfull
  have hfits' := double.lt_two_pow_unit x
  have hfull' := double.two_pow_unit_le hx
  have hleast' := double.least_le_unit x
  have hless : ∀ {a b : Int}, (2 : ℚ) ^ a ≤ x → x < 2 ^ b → a < b :=
    fun ha hb => (zpow_lt_zpow_iff_right₀ (by norm_num)).mp (ha.trans_lt hb)
  have hprecision : (double.precision : Int) = 53 := rfl
  have hdouble : double.least = Binary64.minExponent := rfl
  rw [hprecision] at hfits' hfull'
  rw [hdouble] at hfull' hleast'
  rcases hfull with hfull | hfull
  · have := hless hfull hfits'
    rcases hfull' with hfull' | hfull'
    · have := hless hfull' hfits
      omega
    · omega
  · rcases hfull' with hfull' | hfull'
    · have := hless hfull' hfits
      omega
    · omega

theorem double_round (hx : 0 < x) :
    double.round x = Binary64.roundedSize x.num.natAbs x.den := by
  rw [round, units, double_unit hx]
  rfl

theorem double_round_of_near {m : Nat} (hc : Binary64.Canonical m e) (hm : 0 < m) (hx : 0 < x)
    (h : Binary64.Near m e x) : double.round x = m * 2 ^ e := by
  have hnum : 0 < x.num.natAbs := Int.natAbs_pos.mpr (Rat.num_pos.mpr hx).ne'
  have hnearest := Binary64.nearest_of_near hc hm hnum x.pos (by rwa [num_div_den hx.le]) false
  have hfinite : (Binary64.nearest false x.num.natAbs x.den).isFinite = true := by
    rw [hnearest]
    rfl
  have hvalue := Binary64.nearest_value hnum hfinite
  rw [hnearest] at hvalue
  rw [double_round hx]
  simpa [Binary64.value] using hvalue.symm

theorem double_spells_half (hk : k ≤ 2 ^ 26) (he : single.least ≤ e) :
    double.Spells (k * 2 ^ (e - 1)) := by
  refine ⟨k, e - 1, hk.trans_lt (by decide), ?_, rfl⟩
  have hsingle : single.least = -149 := rfl
  have hdouble : double.least = -1074 := rfl
  omega

/-- The single number nearest to a fraction is also nearest to the double nearest to the
fraction. -/
theorem single_nearest_double (hx : 0 < x) (hr : single.Spells r) :
    |single.round x - double.round x| ≤ |r - double.round x| := by
  have hleast := single.least_le_unit x
  have hunit := two_pow_pos (single.unit x)
  have hunits : single.units x ≤ 2 ^ 24 := single.units_le hx
  obtain ⟨hlow, hhigh⟩ := abs_le.mp (single.round_near hx.le)
  have hhalf : (2 : ℚ) ^ single.unit x = 2 * 2 ^ (single.unit x - 1) := by
    rw [zpow_sub_one₀ (by norm_num)]
    ring
  refine nearest_of_half (by decide) ?_ ?_ hr
  · unfold round at hlow hhigh
    generalize single.units x = k at hunits hlow hhigh ⊢
    rw [hhalf] at hlow hhigh ⊢
    -- Both ends of the interval that the number stands for are doubles.
    have hupper := round_le (f := double) (by decide) hx
      (double_spells_half (k := 2 * k + 1) (by omega) hleast) (by push_cast; linarith)
    push_cast at hupper
    have hlower : ((2 * k : ℚ) - 1) * 2 ^ (single.unit x - 1) ≤ double.round x := by
      rcases Nat.eq_zero_or_pos k with rfl | hpos
      · have hpositive : 0 ≤ double.round x :=
          mul_nonneg (Nat.cast_nonneg _) (two_pow_pos _).le
        have := two_pow_pos (single.unit x - 1)
        push_cast
        linarith
      · have hcast : ((2 * k - 1 : Nat) : ℚ) = 2 * k - 1 := by
          rw [Nat.cast_sub (by omega)]
          push_cast
          rfl
        have := le_round (f := double) (by decide) hx
          (double_spells_half (k := 2 * k - 1) (by omega) hleast) (by rw [hcast]; linarith)
        rwa [hcast] at this
    rw [abs_le]
    constructor <;> linarith
  · refine (single.two_pow_unit_le hx).imp_left fun hreached => ?_
    have hspelled := double_spells_half (k := 1) (by decide)
      (show single.least ≤ single.unit x + (single.precision - 1) + 1 by
        have hprecision : (single.precision : Int) = 24 := rfl
        omega)
    rw [Nat.cast_one, one_mul, add_sub_cancel_right] at hspelled
    exact le_round (by decide) hx hspelled hreached

theorem spells_greatest_single : single.Spells single.greatest :=
  ⟨2 ^ 24 - 1, 104, by decide, by decide, by norm_num [greatest, single]⟩

theorem spells_greatest_double : double.Spells double.greatest :=
  ⟨2 ^ 53 - 1, 971, by decide, by decide, by norm_num [greatest, double]⟩

end Format

end SchemaBeans
