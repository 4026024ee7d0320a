import SchemaBeans.Proofs.Binary64.Shortest

/-! # Doubles as text

A numeral is a row of digits, perhaps with a point in it and an exponent behind it, and reading it
rounds the decimal that it spells. The text of a double spells its shortest decimal in every layout,
so every double is read back from its text. -/
namespace SchemaBeans.Binary64

variable {m : Nat} {e : Int} {digits whole fraction rest body : List Char} {decimal : Decimal}

theorem digitsValue_eq (digits : List Char) :
    digitsValue digits = Nat.ofDigitChars 10 digits 0 := by
  rw [digitsValue, Nat.ofDigitChars_eq_foldl]
  congr 1
  funext n c
  rw [Nat.mul_comm]

theorem digitsValue_append (digits more : List Char) :
    digitsValue (digits ++ more) = 10 ^ more.length * digitsValue digits + digitsValue more := by
  rw [digitsValue_eq, digitsValue_eq, digitsValue_eq, Nat.ofDigitChars_append,
    Nat.ofDigitChars_eq_ofDigitChars_zero]

theorem digitsValue_zeros (n : Nat) : digitsValue (List.replicate n '0') = 0 := by
  rw [digitsValue_eq, Nat.ofDigitChars_replicate_zero, Nat.mul_zero]

theorem digitsValue_toString (n : Nat) : digitsValue (toString n).toList = n := by
  rw [digitsValue_eq, Nat.toString_eq_repr, Nat.toList_repr, Nat.ofDigitChars_ten_toDigits]

theorem isDigit_of_mem_toString {n : Nat} {c : Char} (h : c ∈ (toString n).toList) :
    c.isDigit = true := by
  rw [Nat.toString_eq_repr, Nat.toList_repr] at h
  exact Nat.isDigit_of_mem_toDigits (by decide) (by decide) h

theorem toString_ne_nil (n : Nat) : (toString n).toList ≠ [] := by
  rw [Nat.toString_eq_repr, Nat.toList_repr]
  exact Nat.toDigits_ne_nil

theorem isDigit_of_mem_zeros {n : Nat} {c : Char} (h : c ∈ List.replicate n '0') :
    c.isDigit = true := by
  rw [List.eq_of_mem_replicate h]
  rfl

theorem toLower_digit {c : Char} (h : c.isDigit = true) : c.toLower = c := by
  simp only [Char.isDigit, Bool.and_eq_true, decide_eq_true_eq] at h
  have hupper : ¬ (c.val ≥ 'A'.val ∧ c.val ≤ 'Z'.val) := fun hboth =>
    absurd (UInt32.le_trans hboth.1 h.2) (by decide)
  unfold Char.toLower
  rw [dif_neg hupper]

def AllDigits (digits : List Char) : Prop := ∀ c ∈ digits, c.isDigit = true

theorem allDigits_zero : AllDigits ['0'] := fun c hc => by
  rw [List.mem_singleton.mp hc]
  rfl

/-- The characters spell a decimal. -/
inductive Numeral : List Char → Decimal → Prop
  | plain {whole rest : List Char} {exponent : Int} (hne : whole ≠ []) (hwhole : AllDigits whole)
      (hrest : exponentPart rest = some exponent) :
      Numeral (whole ++ rest) ⟨digitsValue whole, exponent⟩
  | point {whole fraction rest : List Char} {exponent : Int} (hne : whole ≠ [])
      (hwhole : AllDigits whole) (hfraction : AllDigits fraction)
      (hrest : exponentPart rest = some exponent) :
      Numeral (whole ++ '.' :: (fraction ++ rest))
        ⟨digitsValue (whole ++ fraction), exponent - fraction.length⟩

theorem exponentPart_some {exponent : Int} (h : exponentPart rest = some exponent) :
    rest = [] ∨ ∃ mark more, rest = mark :: more ∧ (mark = 'e' ∨ mark = 'E') := by
  cases rest with
  | nil => exact .inl rfl
  | cons mark more =>
    rw [exponentPart] at h
    by_cases hmark : mark = 'e' ∨ mark = 'E'
    · exact .inr ⟨mark, more, rfl, hmark⟩
    · rw [if_neg hmark] at h
      cases h

theorem takeWhile_digits (hwhole : AllDigits whole) (hrest : rest.takeWhile Char.isDigit = []) :
    (whole ++ rest).takeWhile Char.isDigit = whole ∧
      (whole ++ rest).dropWhile Char.isDigit = rest := by
  have hdrop : rest.dropWhile Char.isDigit = rest := by
    have hboth := List.takeWhile_append_dropWhile (p := Char.isDigit) (l := rest)
    rwa [hrest, List.nil_append] at hboth
  rw [List.takeWhile_append_of_pos hwhole, List.dropWhile_append_of_pos hwhole, hrest, hdrop,
    List.append_nil]
  exact ⟨rfl, rfl⟩

theorem takeWhile_exponent {exponent : Int} (h : exponentPart rest = some exponent) :
    rest.takeWhile Char.isDigit = [] := by
  rcases exponentPart_some h with rfl | ⟨mark, more, rfl, hmark⟩
  · rfl
  · rcases hmark with rfl | rfl <;> rfl

theorem Numeral.head (h : Numeral body decimal) :
    ∃ c more, body = c :: more ∧ c.isDigit = true := by
  cases h with
  | @plain whole _ _ hne hwhole _ =>
    cases whole with
    | nil => exact absurd rfl hne
    | cons c more => exact ⟨c, _, rfl, hwhole c List.mem_cons_self⟩
  | @point whole _ _ _ hne hwhole _ _ =>
    cases whole with
    | nil => exact absurd rfl hne
    | cons c more => exact ⟨c, _, rfl, hwhole c List.mem_cons_self⟩

def signText (negative : Bool) : List Char := if negative then ['-'] else []

/-- The decimal that a numeral spells is rounded. -/
theorem ofText?_numeral (h : Numeral body decimal) (negative : Bool) :
    ofText? (signText negative ++ body) = some (ofDecimal negative decimal) := by
  obtain ⟨c, more, hbody, hc⟩ := h.head
  have hsigned : signed (signText negative ++ body) = (negative, body) := by
    cases negative with
    | true => rfl
    | false =>
      rw [hbody]
      show signed (c :: more) = _
      unfold signed
      split
      · rename_i hminus
        cases hminus
        exact absurd hc (by decide)
      · rename_i hplus
        cases hplus
        exact absurd hc (by decide)
      · rfl
  have hword : ∀ w : List Char, w.head?.any Char.isDigit = false → body.map Char.toLower ≠ w := by
    rintro w hw rfl
    rw [hbody, List.map_cons, List.head?_cons, toLower_digit hc] at hw
    exact absurd hc (by simpa using hw)
  unfold ofText?
  rw [hsigned]
  dsimp only
  rw [if_neg (not_or.mpr ⟨hword _ (by decide), hword _ (by decide)⟩), if_neg (hword _ (by decide))]
  cases h with
  | @plain whole rest exponent hne hwhole hrest =>
    obtain ⟨htake, hdrop⟩ := takeWhile_digits hwhole (takeWhile_exponent hrest)
    rw [htake, hdrop]
    split
    · -- A point after the digits would be the mark of the exponent.
      simp [exponentPart] at hrest
    · simp [hne, hrest]
  | @point whole fraction rest exponent hne hwhole hfraction hrest =>
    obtain ⟨htake, hdrop⟩ := @takeWhile_digits whole ('.' :: (fraction ++ rest)) hwhole rfl
    obtain ⟨hinner, hafter⟩ := takeWhile_digits hfraction (takeWhile_exponent hrest)
    rw [htake, hdrop]
    simp [hinner, hafter, hne, hrest]

theorem exponentPart_toString (lead : Int) :
    exponentPart ("e" ++ (if lead < 0 then "-" else "+") ++ toString lead.natAbs).toList =
      some lead := by
  have hdigits : (toString lead.natAbs).toList.all Char.isDigit = true :=
    List.all_eq_true.mpr fun _ => isDigit_of_mem_toString
  have hvalue := digitsValue_toString lead.natAbs
  have hne := toString_ne_nil lead.natAbs
  rw [String.toList_append, String.toList_append]
  generalize (toString lead.natAbs).toList = digits at hdigits hvalue hne
  by_cases hneg : lead < 0
  · rw [if_pos hneg]
    have hsigned : signed ("-".toList ++ digits) = (true, digits) := rfl
    rw [List.append_assoc, show "e".toList = ['e'] from rfl, List.singleton_append, exponentPart,
      if_pos (.inl rfl), hsigned]
    simp only [List.isEmpty_eq_false_iff.mpr hne, hdigits, hvalue, Bool.not_true, Bool.or_self,
      Bool.false_eq_true, if_false, if_true, Option.some.injEq]
    omega
  · rw [if_neg hneg]
    have hsigned : signed ("+".toList ++ digits) = (false, digits) := rfl
    rw [List.append_assoc, show "e".toList = ['e'] from rfl, List.singleton_append, exponentPart,
      if_pos (.inl rfl), hsigned]
    simp only [List.isEmpty_eq_false_iff.mpr hne, hdigits, hvalue, Bool.not_true, Bool.or_self,
      Bool.false_eq_true, if_false, Option.some.injEq]
    omega

namespace Layout

variable {layout : Layout}

/-- What is written after a whole number leaves it as it is. -/
def Plain (layout : Layout) : Prop := layout.whole = "" ∨ layout.whole = ".0"

theorem Plain.numeral (h : layout.Plain) (hne : digits ≠ []) (hdigits : AllDigits digits) :
    ∃ spelled, Numeral (digits ++ layout.whole.toList) spelled ∧
      spelled.value = digitsValue digits := by
  rcases h with h | h
  · rw [h]
    refine ⟨_, .plain hne hdigits rfl, ?_⟩
    simp [Decimal.value]
  · rw [h]
    refine ⟨_, @Numeral.point digits ['0'] [] _ hne hdigits allDigits_zero rfl, ?_⟩
    rw [Decimal.value, digitsValue_append]
    push_cast
    norm_num [digitsValue]
    ring

theorem Plain.numeral_zeros (h : layout.Plain) (hne : digits ≠ []) (hdigits : AllDigits digits)
    (hexponent : 0 ≤ e) : ∃ spelled,
      Numeral (digits ++ List.replicate e.toNat '0' ++ layout.whole.toList) spelled ∧
        spelled.value = Decimal.value ⟨digitsValue digits, e⟩ := by
  obtain ⟨n, rfl⟩ := Int.eq_ofNat_of_zero_le hexponent
  have hzeros : AllDigits (digits ++ List.replicate n '0') :=
    List.forall_mem_append.mpr ⟨hdigits, fun _ => isDigit_of_mem_zeros⟩
  obtain ⟨spelled, hspelled, hvalue⟩ := h.numeral (by simp [hne]) hzeros
  refine ⟨spelled, hspelled, ?_⟩
  rw [hvalue, digitsValue_append, digitsValue_zeros, List.length_replicate, Decimal.value,
    zpow_natCast]
  push_cast
  ring

theorem numeral_inside (hdigits : AllDigits digits) (hpoint : 0 < digits.length + e)
    (hexponent : e < 0) : ∃ spelled,
      Numeral (digits.take (digits.length + e).toNat ++ '.' ::
        digits.drop (digits.length + e).toNat) spelled ∧
          spelled.value = Decimal.value ⟨digitsValue digits, e⟩ := by
  have hne : digits.take (digits.length + e).toNat ≠ [] := by
    rw [← List.length_pos_iff, List.length_take]
    omega
  have hspelled : Numeral (digits.take (digits.length + e).toNat ++ '.' ::
      (digits.drop (digits.length + e).toNat ++ [])) _ :=
    .point hne (fun c hc => hdigits c (List.mem_of_mem_take hc))
      (fun c hc => hdigits c (List.mem_of_mem_drop hc)) rfl
  rw [List.append_nil] at hspelled
  refine ⟨_, hspelled, ?_⟩
  rw [List.take_append_drop]
  congr 2
  rw [List.length_drop]
  omega

theorem numeral_leading (hdigits : AllDigits digits) (hpoint : digits.length + e ≤ 0) : ∃ spelled,
    Numeral ('0' :: '.' :: (List.replicate (-(digits.length + e)).toNat '0' ++ digits)) spelled ∧
      spelled.value = Decimal.value ⟨digitsValue digits, e⟩ := by
  have hspelled : Numeral (['0'] ++ '.' ::
      ((List.replicate (-(digits.length + e)).toNat '0' ++ digits) ++ [])) _ :=
    .point (by simp) allDigits_zero
      (List.forall_mem_append.mpr ⟨fun _ => isDigit_of_mem_zeros, hdigits⟩) rfl
  rw [List.append_nil] at hspelled
  refine ⟨_, hspelled, ?_⟩
  have hzero : digitsValue ['0'] = 0 := rfl
  rw [digitsValue_append, digitsValue_append, digitsValue_zeros, hzero, Nat.mul_zero, Nat.mul_zero,
    Nat.zero_add, Nat.zero_add]
  congr 2
  rw [List.length_append, List.length_replicate]
  push_cast
  omega

theorem numeral_scientific : ∀ digits : List Char, digits ≠ [] → AllDigits digits →
    exponentPart rest = some (digits.length + e - 1) → ∃ spelled,
      Numeral ((match digits with
        | first :: second :: more => first :: '.' :: second :: more
        | short => short) ++ rest) spelled ∧
          spelled.value = Decimal.value ⟨digitsValue digits, e⟩
  | [], hne, _, _ => absurd rfl hne
  | [first], hne, hdigits, hrest => by
    refine ⟨_, .plain hne hdigits hrest, ?_⟩
    congr 2
    simp
  | first :: second :: more, _, hdigits, hrest => by
    obtain ⟨hfirst, hmore⟩ := List.forall_mem_cons.mp hdigits
    refine ⟨_, @Numeral.point [first] (second :: more) _ _ (by simp)
      (List.forall_mem_singleton.mpr hfirst) hmore hrest, ?_⟩
    rw [List.singleton_append]
    congr 2
    simp only [List.length_cons]
    push_cast
    ring

/-- The text of a positive decimal spells a decimal of the same value. -/
theorem positive_numeral (h : layout.Plain) (decimal : Decimal) :
    ∃ spelled, Numeral (layout.positive decimal).toList spelled ∧
      spelled.value = decimal.value := by
  have hdigits : AllDigits (toString decimal.digits).toList := fun _ => isDigit_of_mem_toString
  have hne := toString_ne_nil decimal.digits
  have hsame : decimal = ⟨digitsValue (toString decimal.digits).toList, decimal.exponent⟩ := by
    rw [digitsValue_toString]
  rw [congrArg Decimal.value hsame]
  unfold positive
  dsimp only
  generalize (toString decimal.digits).toList = digits at hdigits hne
  split
  · split
    · rename_i hexponent
      rw [String.toList_append, String.toList_ofList]
      exact h.numeral_zeros hne hdigits hexponent
    · rename_i hexponent
      split
      · rename_i hpoint
        rw [String.toList_ofList]
        exact numeral_inside hdigits hpoint (Int.not_le.mp hexponent)
      · rename_i hpoint
        rw [String.toList_ofList]
        exact numeral_leading hdigits (Int.not_lt.mp hpoint)
  · rw [String.append_assoc, String.append_assoc, String.toList_append, String.toList_ofList,
      ← String.append_assoc]
    exact numeral_scientific digits hne hdigits (exponentPart_toString _)

end Layout

/-- A finite double has its significand and exponent in the usual form. -/
def WellFormed : Binary64 → Prop
  | .finite _ m e => Canonical m e
  | _ => True

theorem ofText?_text {layout : Layout} (h : layout.Plain) {x : Binary64} (hx : x.WellFormed) :
    ofText? (layout.text x).toList = some x := by
  cases x with
  | finite negative m e =>
    have htext : (layout.text (.finite negative m e)).toList = signText negative ++
        (if m = 0 then "0" ++ layout.whole else layout.positive (shortest m e)).toList := by
      unfold Layout.text signText
      cases negative <;> simp
    rw [htext]
    rcases Nat.eq_zero_or_pos m with rfl | hm
    · obtain ⟨spelled, hspelled, hvalue⟩ :=
        @Layout.Plain.numeral ['0'] _ h (by decide) allDigits_zero
      rw [if_pos rfl, String.toList_append, show "0".toList = ['0'] from rfl,
        ofText?_numeral hspelled]
      have hzero : spelled.digits = 0 := by
        have hten := ten_pow_pos spelled.exponent
        have hnone : digitsValue ['0'] = 0 := by decide
        rw [hnone, Decimal.value, Nat.cast_zero, mul_eq_zero] at hvalue
        exact_mod_cast hvalue.resolve_right hten.ne'
      have he : e = minExponent := hx.full.resolve_left (by decide)
      rw [ofDecimal, if_pos (.inl hzero), he]
      rfl
    · obtain ⟨spelled, hspelled, hvalue⟩ := Layout.positive_numeral h (shortest m e)
      obtain ⟨-, hnear⟩ := shortest_near hx hm
      rw [if_neg hm.ne', ofText?_numeral hspelled,
        ofDecimal_near hx hm (by rw [hvalue]; exact hnear)]
  | infinite negative =>
    cases negative with
    | false => exact show ofText? "inf".toList = some (.infinite false) by decide
    | true => exact show ofText? "-inf".toList = some (.infinite true) by decide
  | nan => exact show ofText? "NaN".toList = some .nan by decide

end SchemaBeans.Binary64
