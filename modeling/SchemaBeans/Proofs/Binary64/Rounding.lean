import Mathlib
import SchemaBeans.Binary64.Decimal

/-! # Rounding to doubles

Around every double lie the fractions that round to it, from the middle between it and its neighbour
below to the middle above. The middle itself belongs to the double with the even significand. -/
namespace SchemaBeans.Binary64

variable {m num den : Nat} {e : Int} {x : ℚ}

theorem scaleUp_pos (n : Int) : 0 < scaleUp n := by
  rw [scaleUp, Nat.one_shiftLeft]
  exact Nat.two_pow_pos _

theorem scaleDown_pos (n : Int) : 0 < scaleDown n := by
  rw [scaleDown, Nat.one_shiftLeft]
  exact Nat.two_pow_pos _

theorem scaleUp_eq (n : Int) : (scaleUp n : ℚ) = 2 ^ n * scaleDown n := by
  rw [scaleUp, scaleDown, Nat.one_shiftLeft, Nat.one_shiftLeft]
  push_cast
  rw [← zpow_natCast, ← zpow_natCast, ← zpow_add₀ (by norm_num)]
  congr 1
  omega

theorem two_pow_pos (n : Int) : (0 : ℚ) < 2 ^ n := by positivity

theorem leadingBit_eq : (leadingBit : ℚ) = 2 ^ (52 : Int) := by norm_num [leadingBit]

theorem significandEnd_eq : (significandEnd : ℚ) = 2 ^ (53 : Int) := by
  norm_num [significandEnd, leadingBit]

/-- A fraction at most half away from an integer is rounded to it, if the integer is even where it
is just half away. -/
theorem roundHalfEven_eq (hden : 0 < den) (hlow : 2 * m * den ≤ 2 * num + den)
    (hhigh : 2 * num ≤ 2 * m * den + den)
    (heven : 2 * m * den = 2 * num + den ∨ 2 * num = 2 * m * den + den → m % 2 = 0) :
    roundHalfEven num den = m := by
  have hsplit : den * (num / den) + num % den = num := Nat.div_add_mod num den
  have hrest : num % den < den := Nat.mod_lt num hden
  unfold roundHalfEven
  dsimp only
  generalize num / den = q at hsplit ⊢
  generalize num % den = r at hsplit hrest ⊢
  -- The quotient is the integer itself or the one below it.
  have hupper : q < m + 1 := by
    by_contra hq
    have hmul : den * (m + 1) ≤ den * q := Nat.mul_le_mul_left den (by omega)
    have hexpand : den * (m + 1) = m * den + den := by ring
    have hdouble : 2 * m * den = 2 * (m * den) := by ring
    omega
  have hlower : m < q + 2 := by
    by_contra hq
    have hmul : den * (q + 2) ≤ den * m := Nat.mul_le_mul_left den (by omega)
    have hexpand : den * (q + 2) = den * q + 2 * den := by ring
    have hdouble : 2 * m * den = 2 * (den * m) := by ring
    omega
  obtain rfl | rfl : q = m ∨ m = q + 1 := by omega
  · have hdouble : 2 * q * den = 2 * (den * q) := by ring
    rw [if_neg]
    rintro (hmore | ⟨hhalf, hodd⟩)
    · omega
    · have := heven (by omega)
      omega
  · have hdouble : 2 * (q + 1) * den = 2 * (den * q) + 2 * den := by ring
    rw [if_pos]
    by_cases hmore : den < 2 * r
    · exact .inl hmore
    · have := heven (by omega)
      exact .inr ⟨by omega, by omega⟩

theorem le_units_iff (hden : 0 < den) (a : Nat) :
    a ≤ num * scaleDown e / (den * scaleUp e) ↔ a * 2 ^ e ≤ (num / den : ℚ) := by
  have hpos : (0 : ℚ) < den := by exact_mod_cast hden
  have hdown : (0 : ℚ) < scaleDown e := by exact_mod_cast scaleDown_pos e
  rw [Nat.le_div_iff_mul_le (Nat.mul_pos hden (scaleUp_pos e)), le_div_iff₀ hpos]
  rw [← Nat.cast_le (α := ℚ)]
  push_cast
  rw [scaleUp_eq]
  constructor
  · intro h
    refine le_of_mul_le_mul_right ?_ hdown
    calc (a : ℚ) * 2 ^ e * den * scaleDown e = a * (den * (2 ^ e * scaleDown e)) := by ring
      _ ≤ num * scaleDown e := h
  · intro h
    calc (a : ℚ) * (den * (2 ^ e * scaleDown e)) = a * 2 ^ e * den * scaleDown e := by ring
      _ ≤ num * scaleDown e := mul_le_mul_of_nonneg_right h hdown.le

theorem inUnits_eq (hden : 0 < den) (hlow : ((m : ℚ) - 1 / 2) * 2 ^ e ≤ num / den)
    (hhigh : (num / den : ℚ) ≤ (m + 1 / 2) * 2 ^ e)
    (heven : ((m : ℚ) - 1 / 2) * 2 ^ e = num / den ∨ (num / den : ℚ) = (m + 1 / 2) * 2 ^ e →
      m % 2 = 0) : inUnits num den e = m := by
  have hpos : (0 : ℚ) < den := by exact_mod_cast hden
  have hdown : (0 : ℚ) < scaleDown e := by exact_mod_cast scaleDown_pos e
  have hboth : (0 : ℚ) < den * scaleDown e := mul_pos hpos hdown
  -- Both sides are compared as multiples of half a unit.
  have hx : (num / den : ℚ) * (den * scaleDown e) = num * scaleDown e := by
    field_simp
  have hscale : (2 : ℚ) ^ e * (den * scaleDown e) = den * scaleUp e := by
    rw [scaleUp_eq]
    ring
  have hlowNat : 2 * m * (den * scaleUp e) ≤ 2 * (num * scaleDown e) + den * scaleUp e := by
    rw [← Nat.cast_le (α := ℚ)]
    push_cast
    have h := mul_le_mul_of_nonneg_right hlow hboth.le
    rw [hx, mul_assoc, hscale] at h
    linarith
  have hhighNat : 2 * (num * scaleDown e) ≤ 2 * m * (den * scaleUp e) + den * scaleUp e := by
    rw [← Nat.cast_le (α := ℚ)]
    push_cast
    have h := mul_le_mul_of_nonneg_right hhigh hboth.le
    rw [hx, mul_assoc, hscale] at h
    linarith
  refine roundHalfEven_eq (Nat.mul_pos hden (scaleUp_pos e)) hlowNat hhighNat fun hhalf => ?_
  refine heven (hhalf.imp (fun h => ?_) fun h => ?_)
  all_goals
    refine mul_right_cancel₀ hboth.ne' ?_
    rw [hx, mul_assoc, hscale]
    have hcast := congrArg (Nat.cast : Nat → ℚ) h
    push_cast at hcast
    linarith

theorem log2_bounds {n : Nat} (hn : 0 < n) :
    (2 : ℚ) ^ (n.log2 : Int) ≤ n ∧ (n : ℚ) < 2 ^ ((n.log2 : Int) + 1) := by
  constructor
  · rw [zpow_natCast]
    exact_mod_cast Nat.log2_self_le hn.ne'
  · rw [show ((n.log2 : Int) + 1) = ((n.log2 + 1 : Nat) : Int) by push_cast; rfl, zpow_natCast]
    exact_mod_cast Nat.lt_log2_self

theorem fraction_bounds (hnum : 0 < num) (hden : 0 < den) :
    (2 : ℚ) ^ ((num.log2 : Int) - den.log2 - 1) < num / den ∧
      (num / den : ℚ) < 2 ^ ((num.log2 : Int) - den.log2 + 1) := by
  obtain ⟨hn, hn'⟩ := log2_bounds hnum
  obtain ⟨hd, hd'⟩ := log2_bounds hden
  have hpos : (0 : ℚ) < den := by exact_mod_cast hden
  rw [lt_div_iff₀ hpos, div_lt_iff₀ hpos]
  constructor
  · calc (2 : ℚ) ^ ((num.log2 : Int) - den.log2 - 1) * den
        < 2 ^ ((num.log2 : Int) - den.log2 - 1) * 2 ^ ((den.log2 : Int) + 1) :=
          mul_lt_mul_of_pos_left hd' (two_pow_pos _)
      _ = 2 ^ (num.log2 : Int) := by
          rw [← zpow_add₀ (by norm_num)]
          congr 1
          omega
      _ ≤ num := hn
  · calc (num : ℚ) < 2 ^ ((num.log2 : Int) + 1) := hn'
      _ = 2 ^ ((num.log2 : Int) - den.log2 + 1) * 2 ^ (den.log2 : Int) := by
          rw [← zpow_add₀ (by norm_num)]
          congr 1
          omega
      _ ≤ 2 ^ ((num.log2 : Int) - den.log2 + 1) * den :=
          mul_le_mul_of_nonneg_left hd (two_pow_pos _).le

/-- At the exponent of a fraction its significand fits, and has all its bits unless the exponent is
the smallest. -/
theorem exponentFor_spec (hnum : 0 < num) (hden : 0 < den) :
    minExponent ≤ exponentFor num den ∧
      (num / den : ℚ) < 2 ^ (exponentFor num den + 53) ∧
      (2 ^ (exponentFor num den + 52) ≤ (num / den : ℚ) ∨ exponentFor num den = minExponent) := by
  obtain ⟨hlow, hhigh⟩ := fraction_bounds hnum hden
  have hend : ∀ n : Int, (significandEnd : ℚ) * 2 ^ n = 2 ^ (n + 53) := by
    intro n
    rw [significandEnd_eq, ← zpow_add₀ (by norm_num)]
    congr 1
    omega
  have hmono : ∀ {a b : Int}, a ≤ b → (2 : ℚ) ^ a ≤ 2 ^ b :=
    fun h => zpow_le_zpow_right₀ (by norm_num) h
  unfold exponentFor
  dsimp only
  generalize hk : (num.log2 : Int) - den.log2 = k at hlow hhigh ⊢
  by_cases hsplit : significandEnd ≤ num * scaleDown (max (k - 53) minExponent) /
      (den * scaleUp (max (k - 53) minExponent))
  · rw [if_pos hsplit]
    have hover := (le_units_iff hden significandEnd).mp hsplit
    rw [hend] at hover
    refine ⟨by omega, lt_of_lt_of_le hhigh (hmono (by omega)), .inl ?_⟩
    exact le_trans (hmono (by omega)) hover
  · rw [if_neg hsplit]
    have hunder := lt_of_not_ge (mt (le_units_iff hden significandEnd).mpr hsplit)
    rw [hend] at hunder
    refine ⟨by omega, hunder, ?_⟩
    rcases le_total (k - 53) minExponent with hsmall | hlarge
    · exact .inr (max_eq_right hsmall)
    · exact .inl (le_trans (hmono (by omega)) hlow.le)

/-- The significand and exponent of a finite double: all bits of the significand are used unless the
exponent is the smallest. -/
structure Canonical (m : Nat) (e : Int) : Prop where
  below : m < significandEnd
  least : minExponent ≤ e
  most : e ≤ maxExponent
  full : leadingBit ≤ m ∨ e = minExponent

/-- The fraction lies in the interval of a double, and inside it if the significand is odd. -/
structure Near (m : Nat) (e : Int) (x : ℚ) : Prop where
  low : (interval m e).low * 2 ^ (e - 2) ≤ x
  high : x ≤ (interval m e).high * 2 ^ (e - 2)
  even : x = (interval m e).low * 2 ^ (e - 2) ∨ x = (interval m e).high * 2 ^ (e - 2) → m % 2 = 0

theorem quarter (n : Int) : (2 : ℚ) ^ n = 4 * 2 ^ (n - 2) := by
  rw [show n = (n - 2) + 2 by omega, zpow_add₀ (by norm_num)]
  norm_num
  ring

theorem interval_low (hm : 0 < m) : ((interval m e).low : ℚ) =
    4 * m - if m = leadingBit ∧ minExponent < e then 1 else 2 := by
  unfold interval
  dsimp only
  split
  · rw [Nat.cast_sub (by omega)]
    push_cast
    rfl
  · rw [Nat.cast_sub (by omega)]
    push_cast
    rfl

theorem interval_high : ((interval m e).high : ℚ) = 4 * m + 2 := by
  unfold interval
  push_cast
  rfl

theorem Near.half (h : Near m e x) (hm : 0 < m) :
    ((m : ℚ) - 1 / 2) * 2 ^ e ≤ x ∧ x ≤ (m + 1 / 2) * 2 ^ e ∧
      (((m : ℚ) - 1 / 2) * 2 ^ e = x ∨ x = (m + 1 / 2) * 2 ^ e → m % 2 = 0) := by
  obtain ⟨hlow, hhigh, heven⟩ := h
  have hunit := two_pow_pos (e - 2)
  rw [interval_low hm] at hlow heven
  rw [interval_high] at hhigh heven
  rw [quarter e]
  refine ⟨?_, by linarith, fun hends => ?_⟩
  · split at hlow <;> linarith
  · split at hlow
    · rename_i hleading
      rw [hleading.1]
      decide
    · rw [if_neg ‹_›] at heven
      refine heven (hends.imp (fun h => ?_) fun h => ?_) <;> linarith

theorem Near.leading (h : Near leadingBit e x) (he : minExponent < e) :
    ((2 : ℚ) ^ (53 : Int) - 1 / 2) * 2 ^ (e - 1) ≤ x := by
  have hlow := h.low
  rw [interval_low (by decide), if_pos ⟨rfl, he⟩, leadingBit_eq] at hlow
  have hhalf : (2 : ℚ) ^ (e - 1) = 2 * 2 ^ (e - 2) := by
    rw [show e - 1 = (e - 2) + 1 by omega, zpow_add₀ (by norm_num)]
    ring
  have hpow : (2 : ℚ) ^ (53 : Int) = 2 * 2 ^ (52 : Int) := by norm_num
  rw [hhalf, hpow]
  linarith

/-- A fraction near a double has its exponent, or the one below if it lies under a power of two. -/
theorem Near.exponent (h : Near m e x) (hc : Canonical m e) (hm : 0 < m) {n : Int}
    (hleast : minExponent ≤ n) (hfits : x < 2 ^ (n + 53))
    (hfull : 2 ^ (n + 52) ≤ x ∨ n = minExponent) :
    n = e ∨ m = leadingBit ∧ minExponent < e ∧ n = e - 1 := by
  obtain ⟨hlow, hhigh, -⟩ := h.half hm
  have hunit := two_pow_pos e
  have hmono : ∀ {a b : Int}, a ≤ b → (2 : ℚ) ^ a ≤ 2 ^ b :=
    fun h => zpow_le_zpow_right₀ (by norm_num) h
  have hsplit : ∀ k : Int, (2 : ℚ) ^ (e + k) = 2 ^ k * 2 ^ e := fun k => by
    rw [add_comm, zpow_add₀ (by norm_num)]
  rcases lt_trichotomy n e with hless | hsame | hmore
  · -- The significand could not be larger than the leading bit.
    have hbound : x < 2 ^ (52 : Int) * 2 ^ e := by
      rw [← hsplit]
      exact lt_of_lt_of_le hfits (hmono (by omega))
    have hsmall : (m : ℚ) - 1 / 2 < 2 ^ (52 : Int) :=
      lt_of_mul_lt_mul_right (lt_of_le_of_lt hlow hbound) hunit.le
    have hm52 : m = leadingBit := by
      have hle : m ≤ leadingBit := by
        by_contra hgreater
        have hge : ((leadingBit + 1 : Nat) : ℚ) ≤ m := by exact_mod_cast Nat.lt_of_not_le hgreater
        push_cast at hge
        rw [leadingBit_eq] at hge
        linarith
      rcases hc.full with hfull | hmin
      · omega
      · omega
    subst hm52
    have he : minExponent < e := by omega
    refine .inr ⟨rfl, he, ?_⟩
    by_contra hne
    have hfar : x < 2 ^ (52 : Int) * 2 ^ (e - 1) := by
      rw [← zpow_add₀ (by norm_num)]
      exact lt_of_lt_of_le hfits (hmono (by omega))
    have hnear := h.leading he
    have hhalf := two_pow_pos (e - 1)
    norm_num at hnear hfar
    linarith
  · exact .inl hsame
  · exfalso
    have hge : 2 ^ (53 : Int) * 2 ^ e ≤ x := by
      rw [← hsplit]
      exact le_trans (hmono (by omega)) (hfull.resolve_right (by have := hc.least; omega))
    have hle : ((m : ℚ) + 1) ≤ 2 ^ (53 : Int) := by
      rw [← significandEnd_eq]
      exact_mod_cast hc.below
    have hover := mul_le_mul_of_nonneg_right hle hunit.le
    linarith

theorem nearest_of_near (hc : Canonical m e) (hm : 0 < m) (hnum : 0 < num) (hden : 0 < den)
    (h : Near m e (num / den)) (negative : Bool) :
    nearest negative num den = .finite negative m e := by
  obtain ⟨hleast, hfits, hfull⟩ := exponentFor_spec hnum hden
  have hmost := hc.most
  unfold nearest
  rw [if_neg hnum.ne']
  dsimp only
  rcases h.exponent hc hm hleast hfits hfull with hsame | ⟨rfl, he, hbelow⟩
  · obtain ⟨hlow, hhigh, heven⟩ := h.half hm
    have hbelow := hc.below
    rw [hsame, inUnits_eq hden hlow hhigh heven, if_neg hbelow.ne, if_neg (by omega)]
  · -- One unit below, the significand has one bit more than it may have.
    have hcarry : inUnits num den (e - 1) = significandEnd := by
      have hlow := h.leading he
      rw [hbelow, show e - 1 + 53 = 53 + (e - 1) by omega, zpow_add₀ (by norm_num)] at hfits
      have hunit := two_pow_pos (e - 1)
      refine inUnits_eq hden ?_ ?_ fun _ => by decide
      · rw [significandEnd_eq]
        exact hlow
      · rw [significandEnd_eq]
        linarith
    rw [hbelow, hcarry, if_pos rfl]
    dsimp only
    rw [sub_add_cancel, if_neg (by omega)]

end SchemaBeans.Binary64
