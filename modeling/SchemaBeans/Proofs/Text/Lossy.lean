import Mathlib.Data.List.Basic
import Mathlib.Data.Nat.Find
import SchemaBeans.Proofs.Text.Octets

/-! # Lossy reading

Octets need not be text. Where a character stands written out it is read; where none does, one
replacement character is read for as many octets as are the start of some character, or for a single
octet that starts none. The decoder finds this reading, and there is no other. -/
namespace SchemaBeans.Text

variable {b : Nat} {part rest tail : List Nat}

def Begins (part : List Nat) : Prop := ∃ c, part <+: octets c

/-- No character stands at the front, and the part is what one replacement character is read for. -/
structure Broken (part rest : List Nat) : Prop where
  no_char : ∀ c, ¬ octets c <+: part ++ rest
  ne_nil : part ≠ []
  begins : Begins part ∨ part.length = 1
  longest : ∀ longer, longer <+: part ++ rest → Begins longer → longer.length ≤ part.length

/-- The text that octets are read as. -/
inductive Lossy : List Nat → List Char → Prop
  | nil : Lossy [] []
  | char (c : Char) {rest : List Nat} {text : List Char} (h : Lossy rest text) :
      Lossy (octets c ++ rest) (c :: text)
  | broken {part rest : List Nat} {text : List Char} (hpart : Broken part rest)
      (h : Lossy rest text) : Lossy (part ++ rest) (replacement :: text)

/-- The octets that complete a character of which some are still owed. -/
def Completes : Nat → Nat → Nat → List Nat → Prop
  | 0, _, _, tail => tail = []
  | _ + 1, _, _, [] => False
  | owed + 1, low, high, b :: tail => low ≤ b ∧ b ≤ high ∧ Completes owed 0x80 0xBF tail

theorem completes_replicate (owed : Nat) : Completes owed 0x80 0xBF (List.replicate owed 0x80) := by
  induction owed with
  | zero => rfl
  | succ owed ih => exact ⟨by decide, by decide, ih⟩

theorem Completes.length {owed low high : Nat} (h : Completes owed low high tail) :
    tail.length = owed := by
  induction owed generalizing low high tail with
  | zero => simp [Completes] at h; simp [h]
  | succ owed ih =>
    cases tail with
    | nil => exact h.elim
    | cons b tail => simp [ih h.2.2]

theorem exists_completes {owed low high bits : Nat} (h : opening b = some (owed, low, high, bits)) :
    ∃ tail, Completes owed low high tail := by
  have hrange : low ≤ high := by
    unfold opening at h
    repeat' split at h
    all_goals cases h <;> decide
  cases owed with
  | zero => exact ⟨[], rfl⟩
  | succ owed =>
    exact ⟨low :: List.replicate owed 0x80, Nat.le_refl _, hrange, completes_replicate owed⟩

theorem opening_of_octets {c : Char} (h : octets c = b :: tail) :
    ∃ owed low high bits, opening b = some (owed, low, high, bits) ∧
    Completes owed low high tail := by
  have hvalid : c.toNat < 0xD800 ∨ 0xDFFF < c.toNat ∧ c.toNat < 0x110000 := c.valid
  unfold octets at h
  generalize c.toNat = n at hvalid h
  dsimp only at h
  split at h
  · rename_i hn
    cases h
    exact ⟨0, 0x80, 0xBF, _, if_pos hn, rfl⟩
  · split at h
    · cases h
      exact ⟨_, _, _, _, opening_pair (by omega) (by omega), by omega, by omega, rfl⟩
    · split at h
      · cases h
        obtain ⟨low, high, hopening, hlow, hhigh⟩ :=
          @opening_triple (0xE0 + n / 0x1000) (by omega) (by omega)
        refine ⟨_, _, _, _, hopening, ?_, ?_, by omega, by omega, rfl⟩
        · split at hlow <;> omega
        · split at hhigh <;> omega
      · cases h
        obtain ⟨low, high, hopening, hlow, hhigh⟩ :=
          @opening_quadruple (0xF0 + n / 0x40000) (by omega) (by omega)
        refine ⟨_, _, _, _, hopening, ?_, ?_, by omega, by omega, by omega, by omega, rfl⟩
        · split at hlow <;> omega
        · split at hhigh <;> omega

theorem toNat_ofNat {n : Nat} (h : n < 0xD800 ∨ 0xDFFF < n ∧ n < 0x110000) :
    (Char.ofNat n).toNat = n := by
  rw [Char.ofNat, dif_pos h]
  rfl

variable {x y z : Nat}

theorem octets_pair (hlow : 0xC2 ≤ b) (hhigh : b < 0xE0) (hx : 0x80 ≤ x ∧ x ≤ 0xBF) :
    octets (Char.ofNat ((b - 0xC0) * 0x40 + (x - 0x80))) = [b, x] := by
  unfold octets
  rw [toNat_ofNat (by omega)]
  dsimp only
  rw [if_neg (by omega), if_pos (by omega), List.cons.injEq, List.cons.injEq]
  exact ⟨by omega, by omega, rfl⟩

theorem octets_triple {n : Nat} (hn : n = (b - 0xE0) * 0x1000 + (x - 0x80) * 0x40 + (y - 0x80))
    (hb : 0xE0 ≤ b) (hx : 0x80 ≤ x ∧ x ≤ 0xBF) (hy : 0x80 ≤ y ∧ y ≤ 0xBF) (hlow : 0x800 ≤ n)
    (hhigh : n < 0x10000) (hvalid : n < 0xD800 ∨ 0xDFFF < n) :
    octets (Char.ofNat n) = [b, x, y] := by
  unfold octets
  rw [toNat_ofNat (by omega)]
  dsimp only
  rw [if_neg (by omega), if_neg (by omega), if_pos hhigh]
  simp only [List.cons.injEq, and_true]
  exact ⟨by omega, by omega, by omega⟩

theorem octets_quadruple {n : Nat}
    (hn : n = (b - 0xF0) * 0x40000 + (x - 0x80) * 0x1000 + (y - 0x80) * 0x40 + (z - 0x80))
    (hb : 0xF0 ≤ b) (hx : 0x80 ≤ x ∧ x ≤ 0xBF) (hy : 0x80 ≤ y ∧ y ≤ 0xBF)
    (hz : 0x80 ≤ z ∧ z ≤ 0xBF) (hlow : 0x10000 ≤ n) (hhigh : n < 0x110000) :
    octets (Char.ofNat n) = [b, x, y, z] := by
  unfold octets
  rw [toNat_ofNat (by omega)]
  dsimp only
  rw [if_neg (by omega), if_neg (by omega), if_neg (by omega)]
  simp only [List.cons.injEq, and_true]
  exact ⟨by omega, by omega, by omega, by omega⟩

theorem exists_octets {owed low high bits : Nat} (h : opening b = some (owed, low, high, bits))
    (htail : Completes owed low high tail) : ∃ c, octets c = b :: tail := by
  unfold opening at h
  repeat' split at h
  all_goals cases h
  -- one octet, two octets, and the ranges of the first octet of three and of four
  · rename_i hb
    cases htail
    refine ⟨Char.ofNat b, ?_⟩
    rw [octets, toNat_ofNat (by omega)]
    exact if_pos hb
  · obtain ⟨x, rfl⟩ := List.length_eq_one_iff.mp htail.length
    exact ⟨_, octets_pair (by omega) (by omega) ⟨htail.1, htail.2.1⟩⟩
  iterate 3
    obtain ⟨x, y, rfl⟩ := List.length_eq_two.mp htail.length
    obtain ⟨hx, hx', hy, hy', -⟩ := htail
    exact ⟨_, octets_triple rfl (by omega) (by omega) ⟨hy, hy'⟩ (by omega) (by omega) (by omega)⟩
  iterate 3
    obtain ⟨x, y, z, rfl⟩ := List.length_eq_three.mp htail.length
    obtain ⟨hx, hx', hy, hy', hz, hz', -⟩ := htail
    exact ⟨_, octets_quadruple rfl (by omega) (by omega) ⟨hy, hy'⟩ ⟨hz, hz'⟩ (by omega) (by omega)⟩

theorem opening_of_begins (h : Begins (b :: part)) :
    ∃ owed low high bits, opening b = some (owed, low, high, bits) ∧
      ∃ tail, Completes owed low high (part ++ tail) := by
  obtain ⟨c, tail, hc⟩ := h
  obtain ⟨owed, low, high, bits, hopening, htail⟩ := opening_of_octets hc.symm
  exact ⟨owed, low, high, bits, hopening, tail, htail⟩

theorem begins_of_opening {owed low high bits : Nat} (h : opening b = some (owed, low, high, bits))
    (htail : Completes owed low high (part ++ tail)) : Begins (b :: part) := by
  obtain ⟨c, hc⟩ := exists_octets h htail
  exact ⟨c, tail, hc.symm⟩

/-- A character that is begun and cannot go on is closed by one replacement character. -/
theorem decodeFrom_broken {p : Begun} (howed : part.length < p.owed)
    (hpart : ∃ tail, Completes p.owed p.low p.high (part ++ tail))
    (hnext : ∀ b, rest.head? = some b → ¬ ∃ tail,
      Completes p.owed p.low p.high (part ++ b :: tail)) :
    decodeFrom p (part ++ rest) = replacement :: decodeFrom between rest := by
  obtain ⟨owed, low, high, bits⟩ := p
  induction part generalizing owed low high bits with
  | nil =>
    obtain ⟨owed, rfl⟩ := Nat.exists_eq_succ_of_ne_zero (Nat.ne_of_gt howed)
    cases rest with
    | nil => rfl
    | cons b rest =>
      have hout : ¬(low ≤ b ∧ b ≤ high) := fun hb =>
        hnext b rfl ⟨_, hb.1, hb.2, completes_replicate owed⟩
      simp [decodeFrom_cons, feed, hout, between]
  | cons x part ih =>
    obtain ⟨owed, rfl⟩ : ∃ n, owed = n + 2 := ⟨owed - 2, by simp at howed; omega⟩
    obtain ⟨tail, hlow, hhigh, htail⟩ := hpart
    rw [List.cons_append, decode_inner hlow hhigh]
    refine ih _ _ _ _ (by simpa using howed) ⟨tail, htail⟩ fun b hb h => ?_
    obtain ⟨tail, h⟩ := h
    exact hnext b hb ⟨tail, hlow, hhigh, h⟩

/-- A broken part does not complete the character that its first octet announces, and what comes
next does not go on with it. -/
theorem Broken.announced {owed low high bits : Nat} (h : Broken (b :: part) rest)
    (hopening : opening b = some (owed, low, high, bits)) :
    part.length < owed ∧ (∃ tail, Completes owed low high (part ++ tail)) ∧
      ∀ x, rest.head? = some x → ¬ ∃ tail, Completes owed low high (part ++ x :: tail) := by
  have hpart : ∃ tail, Completes owed low high (part ++ tail) := by
    rcases h.begins with hbegins | hone
    · obtain ⟨_, _, _, _, hsome, htail⟩ := opening_of_begins hbegins
      rw [hopening] at hsome
      cases hsome
      exact htail
    · rw [List.length_eq_zero_iff.mp (by simpa using hone : part.length = 0)]
      exact exists_completes hopening
  refine ⟨?_, hpart, ?_⟩
  · obtain ⟨tail, htail⟩ := hpart
    have hlength := htail.length
    cases tail with
    | nil =>
      obtain ⟨c, hc⟩ := exists_octets hopening htail
      exact absurd ⟨rest, by simp [hc]⟩ (h.no_char c)
    | cons x tail =>
      simp at hlength
      omega
  · rintro x hx ⟨tail, htail⟩
    obtain ⟨rest, rfl⟩ := List.head?_eq_some_iff.mp hx
    rw [← List.singleton_append, ← List.append_assoc] at htail
    have hlonger : Begins (b :: (part ++ [x])) := begins_of_opening hopening htail
    have hle := h.longest (b :: (part ++ [x])) ⟨rest, by simp⟩ hlonger
    simp only [List.length_cons, List.length_append] at hle
    omega

theorem decode_broken (h : Broken part rest) : decode (part ++ rest) = replacement ::
    decode rest := by
  obtain ⟨b, part, rfl⟩ := List.exists_cons_of_ne_nil h.ne_nil
  cases hopening : opening b with
  | none =>
    -- A part of several octets begins a character, so this one is a single octet.
    have hpart : part = [] := by
      rcases h.begins with hbegins | hone
      · obtain ⟨_, _, _, _, hsome, -⟩ := opening_of_begins hbegins
        rw [hopening] at hsome
        cases hsome
      · simpa using hone
    subst hpart
    simp [decode, decodeFrom_cons, feed, between, start, hopening]
  | some announced =>
    obtain ⟨owed, low, high, bits⟩ := announced
    obtain ⟨howed, hpart, hnext⟩ := h.announced hopening
    obtain ⟨owed, rfl⟩ := Nat.exists_eq_succ_of_ne_zero (Nat.ne_of_gt (Nat.zero_lt_of_lt howed))
    rw [decode, List.cons_append, decode_opening hopening]
    exact decodeFrom_broken howed hpart hnext

open Classical in
theorem exists_broken {bytes : List Nat} (hne : bytes ≠ []) (h : ∀ c, ¬ octets c <+: bytes) :
    ∃ part rest, bytes = part ++ rest ∧ Broken part rest := by
  obtain ⟨n, hn, hbegins, hgreatest⟩ : ∃ n, n ≤ bytes.length ∧ (n ≠ 0 → Begins (bytes.take n)) ∧
      ∀ m, m ≤ bytes.length → Begins (bytes.take m) → m ≤ n :=
    ⟨Nat.findGreatest (fun n => Begins (bytes.take n)) bytes.length, Nat.findGreatest_le _,
      Nat.findGreatest_of_ne_zero rfl, fun _ hle h => Nat.le_findGreatest hle h⟩
  have hlength := List.length_pos_iff.mpr hne
  have htake : (bytes.take (max n 1)).length = max n 1 := by
    rw [List.length_take]
    omega
  refine ⟨bytes.take (max n 1), bytes.drop (max n 1), by simp, by simpa using h, by
    simp [hne], ?_, ?_⟩
  · by_cases hzero : n = 0
    · exact .inr (by rw [htake, hzero, Nat.zero_max])
    · rw [Nat.max_eq_left (Nat.one_le_iff_ne_zero.mpr hzero)]
      exact .inl (hbegins hzero)
  · intro longer hprefix hlonger
    rw [List.take_append_drop] at hprefix
    rw [List.prefix_iff_eq_take.mp hprefix] at hlonger
    rw [htake]
    exact Nat.le_trans (hgreatest _ hprefix.length_le hlonger) (Nat.le_max_left _ _)

theorem lossy_iff {bytes : List Nat} {text : List Char} :
    Lossy bytes text ↔ text = decode bytes := by
  constructor
  · intro h
    induction h with
    | nil => rfl
    | char c _ ih => rw [ih, decode, decode, decode_octets]
    | broken hpart _ ih => rw [ih, decode_broken hpart]
  · rintro rfl
    induction hn : bytes.length using Nat.strongRecOn generalizing bytes with
    | _ n ih =>
    subst hn
    by_cases hne : bytes = []
    · subst hne
      exact .nil
    by_cases hchar : ∃ c, octets c <+: bytes
    · obtain ⟨c, rest, rfl⟩ := hchar
      obtain ⟨b, tail, hc, -⟩ := octets_head c
      rw [decode, decode_octets]
      have hshorter : rest.length < (octets c ++ rest).length := by
        rw [hc, List.length_append, List.length_cons]
        omega
      exact .char c (ih rest.length hshorter rfl)
    · obtain ⟨part, rest, rfl, hpart⟩ := exists_broken hne (not_exists.mp hchar)
      rw [decode_broken hpart]
      have hpos := List.length_pos_iff.mpr hpart.ne_nil
      exact .broken hpart (ih rest.length (by simp; omega) rfl)

-- two octets of a character that does not go on, and one octet that starts none
example : decode [0xE2, 0x82, 0x41, 0xFF] = [replacement, 'A', replacement] := by decide

end SchemaBeans.Text
