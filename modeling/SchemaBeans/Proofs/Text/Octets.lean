import Mathlib.Order.Basic
import SchemaBeans.Percent

/-! # Octets and characters

A character that is written as octets is read back, whatever octets follow. Decoding octets makes no
more characters than a text that spells them has, and not much fewer than there are octets. -/
namespace SchemaBeans.Text

variable {p : Begun} {b : Nat} {rest : List Nat}

theorem decodeFrom_cons (p : Begun) (b : Nat) (rest : List Nat) :
    decodeFrom p (b :: rest) = (feed p b).1 ++ decodeFrom (feed p b).2 rest := rfl

theorem decode_opening {owed low high bits : Nat}
    (h : opening b = some (owed + 1, low, high, bits)) :
    decodeFrom between (b :: rest) = decodeFrom ⟨owed + 1, low, high, bits⟩ rest := by
  simp [decodeFrom_cons, feed, between, start, h]

theorem decode_last {low high bits : Nat} (hlow : low ≤ b) (hhigh : b ≤ high) :
    decodeFrom ⟨1, low, high, bits⟩ (b :: rest) =
      Char.ofNat (bits * 0x40 + (b - 0x80)) :: decodeFrom between rest := by
  simp [decodeFrom_cons, feed, hlow, hhigh]

theorem decode_inner {owed low high bits : Nat} (hlow : low ≤ b) (hhigh : b ≤ high) :
    decodeFrom ⟨owed + 2, low, high, bits⟩ (b :: rest) =
      decodeFrom ⟨owed + 1, 0x80, 0xBF, bits * 0x40 + (b - 0x80)⟩ rest := by
  simp [decodeFrom_cons, feed, hlow, hhigh]

theorem decode_single (hb : b < 0x80) :
    decodeFrom between (b :: rest) = Char.ofNat b :: decodeFrom between rest := by
  simp [decodeFrom_cons, feed, between, start, opening, hb]

theorem opening_pair (hlow : 0xC2 ≤ b) (hhigh : b < 0xE0) :
    opening b = some (1, 0x80, 0xBF, b - 0xC0) := by
  unfold opening
  rw [if_neg (by omega), if_neg (by omega), if_pos hhigh]

theorem opening_triple (hlow : 0xE0 ≤ b) (hhigh : b < 0xF0) :
    ∃ low high, opening b = some (2, low, high, b - 0xE0) ∧
      low = (if b = 0xE0 then 0xA0 else 0x80) ∧ high = (if b = 0xED then 0x9F else 0xBF) := by
  unfold opening
  rw [if_neg (by omega), if_neg (by omega), if_neg (by omega)]
  by_cases h : b = 0xE0
  · subst h
    exact ⟨_, _, rfl, rfl, rfl⟩
  · by_cases h' : b = 0xED
    · subst h'
      exact ⟨_, _, rfl, rfl, rfl⟩
    · exact ⟨0x80, 0xBF, by simp [h, h', hhigh], by simp [h], by simp [h']⟩

theorem opening_quadruple (hlow : 0xF0 ≤ b) (hhigh : b ≤ 0xF4) :
    ∃ low high, opening b = some (3, low, high, b - 0xF0) ∧
      low = (if b = 0xF0 then 0x90 else 0x80) ∧ high = (if b = 0xF4 then 0x8F else 0xBF) := by
  unfold opening
  have hcases : b = 0xF0 ∨ b = 0xF1 ∨ b = 0xF2 ∨ b = 0xF3 ∨ b = 0xF4 := by omega
  rcases hcases with rfl | rfl | rfl | rfl | rfl <;> exact ⟨_, _, rfl, rfl, rfl⟩

/-- A character that is written as octets is read back. -/
theorem decode_octets (c : Char) (rest : List Nat) :
    decodeFrom between (octets c ++ rest) = c :: decodeFrom between rest := by
  have hc : Char.ofNat c.toNat = c := Char.ofNat_toNat c
  have hvalid : c.toNat < 0xD800 ∨ 0xDFFF < c.toNat ∧ c.toNat < 0x110000 := c.valid
  unfold octets
  generalize c.toNat = n at hc hvalid
  dsimp only
  split
  · rename_i h
    rw [List.singleton_append, decode_single h, hc]
  · split
    · rename_i h h'
      rw [List.cons_append, List.singleton_append,
        decode_opening (opening_pair (by omega) (by omega)), decode_last (by omega) (by omega)]
      have hbits : (0xC0 + n / 0x40 - 0xC0) * 0x40 + (0x80 + n % 0x40 - 0x80) = n := by omega
      rw [hbits, hc]
    · split
      · obtain ⟨low, high, hopening, hlow, hhigh⟩ :=
          @opening_triple (0xE0 + n / 0x1000) (by omega) (by omega)
        have hsecond : low ≤ 0x80 + n / 0x40 % 0x40 := by split at hlow <;> omega
        have hsecond' : 0x80 + n / 0x40 % 0x40 ≤ high := by split at hhigh <;> omega
        rw [List.cons_append, List.cons_append, List.singleton_append, decode_opening hopening,
          decode_inner hsecond hsecond', decode_last (by omega) (by omega)]
        have hbits : ((0xE0 + n / 0x1000 - 0xE0) * 0x40 + (0x80 + n / 0x40 % 0x40 - 0x80)) * 0x40 +
            (0x80 + n % 0x40 - 0x80) = n := by omega
        rw [hbits, hc]
      · obtain ⟨low, high, hopening, hlow, hhigh⟩ :=
          @opening_quadruple (0xF0 + n / 0x40000) (by omega) (by omega)
        have hsecond : low ≤ 0x80 + n / 0x1000 % 0x40 := by split at hlow <;> omega
        have hsecond' : 0x80 + n / 0x1000 % 0x40 ≤ high := by split at hhigh <;> omega
        rw [List.cons_append, List.cons_append, List.cons_append, List.singleton_append,
          decode_opening hopening, decode_inner hsecond hsecond',
          decode_inner (by omega) (by omega), decode_last (by omega) (by omega)]
        have hbits : (((0xF0 + n / 0x40000 - 0xF0) * 0x40 +
            (0x80 + n / 0x1000 % 0x40 - 0x80)) * 0x40 + (0x80 + n / 0x40 % 0x40 - 0x80)) * 0x40 +
            (0x80 + n % 0x40 - 0x80) = n := by omega
        rw [hbits, hc]

/-- What the decoder holds on to makes sense: it waits for at most three octets, and for none that
could start a character. -/
structure Begun.Waits (p : Begun) : Prop where
  owed : p.owed ≤ 3
  low : 0x80 ≤ p.low
  high : p.high ≤ 0xBF

/-- The characters that are certain to come of the octets read: one, if a character is begun. -/
def Begun.pending (p : Begun) : Nat := if p.owed = 0 then 0 else 1

/-- The octets read of the character begun, at most. -/
def Begun.held (p : Begun) : Nat := if p.owed = 0 then 0 else 4 - p.owed

theorem waits_between : between.Waits := ⟨by decide, by decide, by decide⟩

theorem opening_waits {owed low high bits : Nat} (h : opening b = some (owed, low, high, bits)) :
    (⟨owed, low, high, bits⟩ : Begun).Waits := by
  unfold opening at h
  repeat' split at h
  all_goals cases h <;> exact ⟨by simp, by simp, by simp⟩

theorem start_cases (b : Nat) : (∃ c, start b = ([c], between)) ∨
    ∃ next : Begun, start b = ([], next) ∧ next.Waits ∧ next.owed ≠ 0 := by
  unfold start
  split
  · exact .inl ⟨_, rfl⟩
  · exact .inl ⟨_, rfl⟩
  · rename_i owed low high bits hzero h
    exact .inr ⟨_, rfl, opening_waits h, hzero⟩

theorem feed_cases (hp : p.Waits) (b : Nat) : p.owed = 0 ∧ feed p b = start b ∨
    p.owed ≠ 0 ∧ (feed p b = (replacement :: (start b).1, (start b).2) ∨
      p.owed = 1 ∧ (∃ c, feed p b = ([c], between)) ∨
      ∃ next : Begun, feed p b = ([], next) ∧ next.Waits ∧ next.owed ≠ 0 ∧
        next.owed + 1 = p.owed) := by
  unfold feed
  by_cases howed : p.owed = 0
  · exact .inl ⟨howed, if_pos howed⟩
  · refine .inr ⟨howed, ?_⟩
    rw [if_neg howed]
    split
    · by_cases hone : p.owed = 1
      · exact .inr (.inl ⟨hone, _, if_pos hone⟩)
      · have hle := hp.owed
        obtain ⟨hthree, hnext, hless⟩ : p.owed - 1 ≤ 3 ∧ p.owed - 1 ≠ 0 ∧
            p.owed - 1 + 1 = p.owed := by
          omega
        exact .inr (.inr ⟨_, if_neg hone, ⟨hthree, by simp, by simp⟩, hnext, hless⟩)
    · exact .inl rfl

theorem start_spec (b : Nat) : (start b).2.Waits ∧
    (start b).1.length + (start b).2.pending = 1 ∧
      1 ≤ 4 * (start b).1.length + (start b).2.held := by
  rcases start_cases b with ⟨c, h⟩ | ⟨next, h, hw, howed⟩ <;> rw [h]
  · exact ⟨waits_between, rfl, by simp [Begun.held, between]⟩
  · have hle := hw.owed
    refine ⟨hw, ?_, ?_⟩
    · simp [Begun.pending, howed]
    · simp [Begun.held, howed]
      omega

theorem feed_spec (hp : p.Waits) (b : Nat) : (feed p b).2.Waits ∧
    (feed p b).1.length + (feed p b).2.pending ≤ p.pending + 1 ∧
      1 + p.held ≤ 4 * (feed p b).1.length + (feed p b).2.held := by
  obtain ⟨hstart, hpending, hheld⟩ := start_spec b
  have hle := hp.owed
  rcases feed_cases hp b with
    ⟨howed, h⟩ | ⟨howed, h | ⟨hone, c, h⟩ | ⟨next, h, hw, hnext, hless⟩⟩ <;>
    rw [h]
  · simp only [Begun.pending, Begun.held, howed, if_true] at *
    exact ⟨hstart, by omega, by omega⟩
  · refine ⟨hstart, ?_, ?_⟩
    · simp only [Begun.pending, howed, if_false, List.length_cons] at *
      omega
    · simp only [Begun.held, howed, if_false, List.length_cons] at *
      omega
  · refine ⟨waits_between, by simp [Begun.pending, between], ?_⟩
    simp [Begun.held, hone, between]
  · refine ⟨hw, by simp [Begun.pending, hnext, howed], ?_⟩
    simp only [Begun.held, hnext, howed, if_false, List.length_nil]
    omega

theorem decode_close (hp : p.Waits) (hb : b < 0x80 ∨ 0xBF < b) :
    (decodeFrom p (b :: rest)).length ≤ p.pending + (decodeFrom between (b :: rest)).length := by
  rw [decodeFrom_cons, decodeFrom_cons]
  have hlow := hp.low
  have hhigh := hp.high
  by_cases howed : p.owed = 0
  · simp [feed, howed, between]
  · have hout : ¬(p.low ≤ b ∧ b ≤ p.high) := by omega
    simp only [feed, howed, hout, if_false, between, if_true, Begun.pending, List.cons_append,
      List.length_cons]
    omega

theorem octets_head (c : Char) : ∃ b tail, octets c = b :: tail ∧ (b < 0x80 ∨ 0xBF < b) := by
  unfold octets
  dsimp only
  split
  · exact ⟨_, _, rfl, .inl ‹_›⟩
  · split
    · exact ⟨_, _, rfl, .inr (by omega)⟩
    · split <;> exact ⟨_, _, rfl, .inr (by omega)⟩

theorem decodeFrom_octets (hp : p.Waits) (c : Char) (rest : List Nat) :
    (decodeFrom p (octets c ++ rest)).length ≤
      p.pending + 1 + (decodeFrom between rest).length := by
  have hread := congrArg List.length (decode_octets c rest)
  obtain ⟨b, tail, h, hb⟩ := octets_head c
  rw [h, List.cons_append, List.length_cons] at hread
  have hclose := @decode_close _ b (tail ++ rest) hp hb
  rw [h, List.cons_append]
  omega

theorem length_le_decode : ∀ (bytes : List Nat) (p : Begun), p.Waits →
    bytes.length + p.held ≤ 4 * (decodeFrom p bytes).length := by
  intro bytes
  induction bytes with
  | nil =>
    intro p hp
    have hle := hp.owed
    by_cases howed : p.owed = 0
    · simp [decodeFrom, Begun.held, howed]
    · simp only [decodeFrom, Begun.held, howed, if_false, List.length_nil, List.length_singleton]
      omega
  | cons b rest ih =>
    intro p hp
    obtain ⟨hw, -, hheld⟩ := feed_spec hp b
    have hrest := ih _ hw
    rw [decodeFrom_cons, List.length_append, List.length_cons]
    omega

end SchemaBeans.Text

namespace SchemaBeans.Percent

open Text

theorem decodeFrom_length_le {p : Begun} (hp : p.Waits) (cs : List Char) :
    (decodeFrom p (octets cs)).length ≤ p.pending + cs.length := by
  fun_induction octets cs generalizing p with
  | case1 =>
    simp only [decodeFrom, Begun.pending]
    split <;> simp
  | case2 a b rest octet hoctet ih =>
    obtain ⟨hw, hpending, -⟩ := feed_spec hp octet
    have hrest := ih hw
    rw [decodeFrom_cons]
    simp only [List.length_append, List.length_cons]
    omega
  | case3 a b rest hoctet ih =>
    have hrest := ih waits_between
    have hfirst := decodeFrom_octets hp '%' (octets (a :: b :: rest))
    simp only [List.length_cons, Begun.pending, between, if_true] at *
    omega
  | case4 c rest hnot ih =>
    have hrest := ih waits_between
    have hfirst := decodeFrom_octets hp c (octets rest)
    simp only [List.length_cons, Begun.pending, between, if_true] at *
    omega

theorem decode_length_le (text : String) : (decode text).length ≤ text.length := by
  have h := decodeFrom_length_le waits_between text.toList
  simpa [decode, Text.decode, Begun.pending, between, String.length_toList] using h

/-- Somewhere in the text a percent sign and the two characters after it spell an octet. -/
def Escaped (text : List Char) : Prop :=
  ∃ before a b after, text = before ++ '%' :: a :: b :: after ∧ (octet? a b).isSome

theorem Escaped.cons {text : List Char} (h : Escaped text) (c : Char) : Escaped (c :: text) := by
  obtain ⟨before, a, b, after, rfl, hoctet⟩ := h
  exact ⟨c :: before, a, b, after, rfl, hoctet⟩

theorem escaped_cons {c : Char} {text : List Char} (h : Escaped (c :: text)) :
    (∃ a b after, c :: text = '%' :: a :: b :: after ∧ (octet? a b).isSome) ∨ Escaped text := by
  obtain ⟨before, a, b, after, htext, hoctet⟩ := h
  cases before with
  | nil => exact .inl ⟨a, b, after, htext, hoctet⟩
  | cons first before => exact .inr ⟨before, a, b, after, (List.cons.inj htext).2, hoctet⟩

theorem decodeFrom_length_lt {p : Begun} (hp : p.Waits) {cs : List Char} (h : Escaped cs) :
    (decodeFrom p (octets cs)).length < p.pending + cs.length := by
  fun_induction octets cs generalizing p with
  | case1 =>
    obtain ⟨before, a, b, after, htext, -⟩ := h
    simp at htext
  | case2 a b rest octet hoctet _ =>
    obtain ⟨hw, hpending, -⟩ := feed_spec hp octet
    have hrest := decodeFrom_length_le hw rest
    rw [decodeFrom_cons]
    simp only [List.length_append, List.length_cons]
    omega
  | case3 a b rest hoctet ih =>
    -- The percent sign at the head stands for itself, so the escape is behind it.
    have hbehind : Escaped (a :: b :: rest) := by
      refine (escaped_cons h).resolve_left ?_
      rintro ⟨a', b', after, htext, hsome⟩
      cases htext
      rw [hoctet] at hsome
      cases hsome
    have hrest := ih waits_between hbehind
    have hfirst := decodeFrom_octets hp '%' (octets (a :: b :: rest))
    simp only [List.length_cons, Begun.pending, between, if_true] at *
    omega
  | case4 c rest hnot ih =>
    have hbehind : Escaped rest := by
      refine (escaped_cons h).resolve_left ?_
      rintro ⟨a, b, after, htext, -⟩
      obtain ⟨hc, hrest⟩ := List.cons.inj htext
      exact hnot a b after hc hrest
    have hrest := ih waits_between hbehind
    have hfirst := decodeFrom_octets hp c (octets rest)
    simp only [List.length_cons, Begun.pending, between, if_true] at *
    omega

theorem decodeFrom_not_escaped {cs : List Char} (h : ¬ Escaped cs) :
    decodeFrom between (octets cs) = cs := by
  fun_induction octets cs with
  | case1 => rfl
  | case2 a b rest octet hoctet _ => exact absurd ⟨[], a, b, rest, rfl, by simp [hoctet]⟩ h
  | case3 a b rest hoctet ih => rw [decode_octets, ih fun hrest => h (hrest.cons _)]
  | case4 c rest hnot ih => rw [decode_octets, ih fun hrest => h (hrest.cons _)]

theorem not_escaped_of_length_le {text : String} (h : text.length ≤ (decode text).length) :
    ¬ Escaped text.toList := by
  intro hescaped
  have hless := decodeFrom_length_lt waits_between hescaped
  rw [← String.length_toList, ← String.length_toList] at h
  simp only [decode, Text.decode, String.toList_ofList, Begun.pending, between, if_true] at h hless
  omega

theorem decode_eq_self_iff {text : String} : decode text = text ↔ ¬ Escaped text.toList := by
  refine ⟨fun h => not_escaped_of_length_le (Nat.le_of_eq (congrArg String.length h.symm)),
    fun h => ?_⟩
  rw [decode, Text.decode, decodeFrom_not_escaped h, String.ofList_toList]

/-- Three characters stand for an octet at least, and four octets for a character. -/
theorem length_le_decode (text : String) : text.length ≤ 12 * (decode text).length := by
  have hoctets : ∀ cs : List Char, cs.length ≤ 3 * (octets cs).length := by
    intro cs
    have hone : ∀ c : Char, 1 ≤ (Text.octets c).length := by
      intro c
      obtain ⟨b, tail, h, -⟩ := octets_head c
      simp [h]
    fun_induction octets cs with
    | case1 => simp
    | case2 a b rest octet hoctet ih =>
      simp only [List.length_cons]
      omega
    | case3 a b rest hoctet ih =>
      have := hone '%'
      simp only [List.length_cons, List.length_append] at *
      omega
    | case4 c rest hnot ih =>
      have := hone c
      simp only [List.length_cons, List.length_append] at *
      omega
  have hbytes := hoctets text.toList
  have hchars := Text.length_le_decode (octets text.toList) between waits_between
  simp only [decode, Text.decode, Begun.held, between, if_true, String.length_toList,
    String.length_ofList] at *
  omega

end SchemaBeans.Percent
