import SchemaBeans.Proofs.Reference.Pointers
import SchemaBeans.Proofs.Text.Lossy
import SchemaBeans.Proofs.Text.Octets

/-! # Pointers in fragments

In the fragment of a reference a pointer may be written with escapes for the octets of any of its
characters, as long as every percent sign is among them. The escapes of the fragment are undone
before those of the segments, so the segments come out as they went in, and the pointer leads
where they lead one after the other. -/
namespace SchemaBeans

theorem Text.decode_encode (text : List Char) : decode (encode text) = text := by
  have hfrom : ∀ text, decodeFrom between (encode text) = text := by
    intro text
    induction text with
    | nil => rfl
    | cons c text ih => rw [encode, List.flatMap_cons, decode_octets, ← encode, ih]
  exact hfrom text

theorem Text.octets_eq_utf8 (c : Char) : octets c = (String.utf8EncodeChar c).map UInt8.toNat := by
  have hvalid : c.toNat < 0xD800 ∨ 0xDFFF < c.toNat ∧ c.toNat < 0x110000 := c.valid
  have hcode : c.toNat = c.val.toNat := rfl
  unfold octets String.utf8EncodeChar
  rw [hcode] at hvalid ⊢
  generalize c.val.toNat = n at hvalid
  dsimp only
  have hle : ∀ bound, n ≤ bound ↔ n < bound + 1 := fun bound => Nat.lt_succ_iff.symm
  simp only [hle, Nat.reduceAdd]
  repeat' split
  all_goals
    simp only [List.map_cons, List.map_nil, UInt8.toNat_ofNat', List.cons.injEq, and_true]
    omega

namespace Percent

def Digit (n : Nat) (c : Char) : Prop := c = n.digitChar ∨ c = n.digitChar.toUpper

/-- The text consists of the escapes of the octets: a percent sign and two digits for each. -/
inductive Escapes : List UInt8 → List Char → Prop
  | nil : Escapes [] []
  | cons {octet : UInt8} {bytes : List UInt8} {high low : Char} {text : List Char}
      (hhigh : Digit (octet.toNat / 16) high) (hlow : Digit (octet.toNat % 16) low)
      (h : Escapes bytes text) : Escapes (octet :: bytes) ('%' :: high :: low :: text)

/-- The second text has escapes for some characters of the first one, and for all percent signs. -/
inductive Encodes : List Char → List Char → Prop
  | nil : Encodes [] []
  | plain {c : Char} {text spelled : List Char} (hc : c ≠ '%') (h : Encodes text spelled) :
      Encodes (c :: text) (c :: spelled)
  | escaped {c : Char} {text escape spelled : List Char}
    (hescape : Escapes (String.utf8EncodeChar c) escape)
      (h : Encodes text spelled) : Encodes (c :: text) (escape ++ spelled)

variable {text spelled : List Char}

theorem digit?_of_digit {n : Nat} {c : Char} (hn : n < 16) (h : Digit n c) :
    digit? c = some n ∧ c ≠ '+' := by
  have hall : ∀ n : Fin 16,
      (digit? (Nat.digitChar n) = some n.val ∧ Nat.digitChar n ≠ '+') ∧
      digit? (Nat.digitChar n).toUpper = some n.val ∧ (Nat.digitChar n).toUpper ≠ '+' := by decide
  rcases h with rfl | rfl
  · exact (hall ⟨n, hn⟩).1
  · exact (hall ⟨n, hn⟩).2

theorem octet?_digits {octet : UInt8} {high low : Char} (hhigh : Digit (octet.toNat / 16) high)
    (hlow : Digit (octet.toNat % 16) low) : octet? high low = some octet.toNat := by
  have hoctet : octet.toNat < 256 := octet.toNat_lt
  obtain ⟨hfirst, hplus⟩ := digit?_of_digit (by omega) hhigh
  obtain ⟨hsecond, -⟩ := digit?_of_digit (by omega) hlow
  have hvalue : 16 * (octet.toNat / 16) + octet.toNat % 16 = octet.toNat := Nat.div_add_mod _ 16
  simp [octet?, hplus, hfirst, hsecond, hvalue]

theorem octets_plain {c : Char} (hc : c ≠ '%') (rest : List Char) :
    octets (c :: rest) = Text.octets c ++ octets rest := by
  rw [octets]
  rintro a b tail rfl
  exact absurd rfl hc

theorem Escapes.octets {bytes : List UInt8} {escape : List Char} (h : Escapes bytes escape)
    (rest : List Char) :
    octets (escape ++ rest) = bytes.map UInt8.toNat ++ Percent.octets rest := by
  induction h with
  | nil => rfl
  | cons hhigh hlow _ ih =>
    simp only [List.cons_append, Percent.octets, octet?_digits hhigh hlow, ih, List.map_cons]

theorem Encodes.octets (h : Encodes text spelled) : octets spelled = Text.encode text := by
  induction h with
  | nil => rfl
  | @plain c text spelled hc _ ih =>
    rw [octets_plain hc, ih, Text.encode, Text.encode, List.flatMap_cons]
  | @escaped c text escape spelled hescape _ ih =>
    rw [hescape.octets, ih, ← Text.octets_eq_utf8, Text.encode, Text.encode, List.flatMap_cons]

theorem Encodes.decode {spelled : String} (h : Encodes text spelled.toList) :
    decode spelled = String.ofList text := by
  rw [Percent.decode, h.octets, Text.decode_encode]

end Percent

namespace Pointer

open Percent

/-- A pointer that is put together from segments and encoded in a fragment has these segments, and
leads from every value where they lead one after the other. -/
theorem segments_of_fragment (segments : List String) {fragment : String}
    (h : Encodes (segments.foldl push "").toList fragment.toList) :
    decode fragment = segments.foldl push "" ∧ segments? (decode fragment) = some segments ∧
    ∀ v : Json, v.lookup? (decode fragment) = segments.foldlM Json.step? v := by
  have hpointer : decode fragment = segments.foldl push "" := by
    rw [h.decode, String.ofList_toList]
  have hsegments : segments? (segments.foldl push "") = some segments :=
    segments?_pushAll segments (rfl : segments? "" = some [])
  refine ⟨hpointer, by rw [hpointer, hsegments], fun v => ?_⟩
  rw [hpointer, Json.lookup?, hsegments]
  rfl

/-- Both signs of the escapes, an empty segment and a letter of two octets; a slash may be escaped
like any other character. -/
theorem segments_of_fragment_empty :
    Encodes "/%~0//ä".toList "/%25~0/%2F%C3%a4".toList ∧
    segments? (decode "/%25~0/%2F%C3%a4") = some ["%~", "", "ä"] ∧
    Json.lookup? (.object [("%~", .object [("", .object [("ä", .null)])])])
      (decode "/%25~0/%2F%C3%a4") = some .null := by
  have hpercent : Escapes (String.utf8EncodeChar '%') "%25".toList :=
    .cons (.inl rfl) (.inl rfl) .nil
  have hslash : Escapes (String.utf8EncodeChar '/') "%2F".toList :=
    .cons (.inl rfl) (.inr rfl) .nil
  have hletter : Escapes (String.utf8EncodeChar 'ä') "%C3%a4".toList :=
    .cons (.inr rfl) (.inl rfl) (.cons (.inl rfl) (.inl rfl) .nil)
  have hend : Encodes "/ä".toList "%2F%C3%a4".toList := .escaped hslash (.escaped hletter .nil)
  have h : Encodes "/%~0//ä".toList "/%25~0/%2F%C3%a4".toList :=
    .plain (by decide) (.escaped hpercent (.plain (by decide) (.plain (by decide)
      (.plain (by decide) hend))))
  obtain ⟨-, hsegments, hlookup⟩ := segments_of_fragment ["%~", "", "ä"] h
  exact ⟨h, hsegments, hlookup _⟩

end Pointer

end SchemaBeans

namespace SchemaBeans

open Text

def Text.stored (text : String) : List Nat := text.toByteArray.data.toList.map UInt8.toNat

theorem Text.stored_eq_encode (text : String) : stored text = encode text.toList := by
  have hoctets : octets = fun c => (String.utf8EncodeChar c).map UInt8.toNat :=
    funext octets_eq_utf8
  rw [stored, ← String.utf8Encode_toList, encode, hoctets]
  simp [List.utf8Encode, List.map_flatMap]

namespace Percent

/-- The value of an octet that is a digit to the base sixteen. -/
def hex? (b : Nat) : Option Nat :=
  if 0x30 ≤ b ∧ b ≤ 0x39 then some (b - 0x30)
  else if 0x61 ≤ b ∧ b ≤ 0x66 then some (b - 0x61 + 10)
  else if 0x41 ≤ b ∧ b ≤ 0x46 then some (b - 0x41 + 10)
  else none

def hexPair? (a b : Nat) : Option Nat := do
  let high ← hex? a
  let low ← hex? b
  pure (16 * high + low)

/-- The same with a sign that may stand in the place of the first digit. -/
def signedPair? (a b : Nat) : Option Nat := if a = 0x2B then hex? b else hexPair? a b

/-- Puts the octet that an escape stands for in its place, from left to right, and keeps all
others. -/
def scan (pair? : Nat → Nat → Option Nat) : List Nat → List Nat
  | [] => []
  | 0x25 :: a :: b :: rest =>
    match pair? a b with
    | some octet => octet :: scan pair? rest
    | none => 0x25 :: scan pair? (a :: b :: rest)
  | b :: rest => b :: scan pair? rest

variable {pair? : Nat → Nat → Option Nat} {a b : Nat} {bytes rest : List Nat}

theorem scan_verbatim (h : ∀ a b' tail, b :: rest = 0x25 :: a :: b' :: tail → pair? a b' = none) :
    scan pair? (b :: rest) = b :: scan pair? rest := by
  rw [scan.eq_def]
  split
  · contradiction
  · rename_i heq
    have hnone := h _ _ _ heq
    cases heq
    simp [hnone]
  · rename_i heq
    cases heq
    rfl

theorem scan_append {part : List Nat} (h : 0x25 ∉ part) :
    scan pair? (part ++ rest) = part ++ scan pair? rest := by
  induction part with
  | nil => rfl
  | cons b part ih =>
    obtain ⟨hb, hpart⟩ := not_or.mp (List.mem_cons.not.mp h)
    rw [List.cons_append, scan_verbatim, ih hpart, List.cons_append]
    rintro _ _ _ heq
    exact absurd (List.cons.inj heq).1.symm hb

theorem hex?_lt {n : Nat} (h : hex? b = some n) : n < 16 := by
  unfold hex? at h
  repeat' split at h
  all_goals
    cases h
    try omega

theorem hex?_bounds (h : (hex? b).isSome) : 0x30 ≤ b ∧ b < 0x80 := by
  unfold hex? at h
  repeat' split at h
  · omega
  · omega
  · omega
  · cases h

theorem digit?_eq_hex? (c : Char) : digit? c = hex? c.toNat := by
  have hle : ∀ a b : Char, a ≤ b ↔ a.toNat ≤ b.toNat := fun _ _ => Iff.rfl
  simp only [digit?, hex?, hle, Char.reduceToNat]
  split
  · rfl
  · split
    · exact congrArg some (by omega)
    · split
      · exact congrArg some (by omega)
      · rfl

theorem octet?_eq_signedPair? (a b : Char) : octet? a b = signedPair? a.toNat b.toNat := by
  have hplus : a = '+' ↔ a.toNat = 0x2B := by
    constructor
    · rintro rfl
      rfl
    · intro h
      rw [← Char.ofNat_toNat a, h]
  simp only [octet?, signedPair?, hexPair?, hplus, digit?_eq_hex?]

theorem hexPair?_eq_some {octet : Nat} (h : hexPair? a b = some octet) :
    (hex? a).isSome ∧ (hex? b).isSome := by
  obtain ⟨high, hhigh, low, hlow, -⟩ : ∃ high, hex? a = some high ∧ ∃ low, hex? b = some low ∧
      16 * high + low = octet := by simpa [hexPair?, Option.bind_eq_some_iff] using h
  simp [hhigh, hlow]

theorem signedPair?_lt {octet : Nat} (h : signedPair? a b = some octet) : a < 0x80 ∧ b < 0x80 := by
  unfold signedPair? at h
  split at h
  · exact ⟨by omega, (hex?_bounds (Option.isSome_of_eq_some h)).2⟩
  · obtain ⟨ha, hb⟩ := hexPair?_eq_some h
    exact ⟨(hex?_bounds ha).2, (hex?_bounds hb).2⟩

theorem octets_of_lt {c : Char} (h : c.toNat < 0x80) : Text.octets c = [c.toNat] := if_pos h

theorem encode_cons_of_lt {c : Char} {cs : List Char} (h : c.toNat < 0x80) :
    encode (c :: cs) = c.toNat :: encode cs := by
  rw [encode, List.flatMap_cons, octets_of_lt h]
  rfl

theorem le_of_mem_octets {c : Char} (h : 0x80 ≤ c.toNat) (hb : b ∈ Text.octets c) : 0x80 ≤ b := by
  unfold Text.octets at hb
  dsimp only at hb
  rw [if_neg (by omega)] at hb
  repeat' split at hb
  all_goals
    simp only [List.mem_cons, List.not_mem_nil, or_false] at hb
    omega

theorem percent_not_mem_octets {c : Char} (h : c ≠ '%') : 0x25 ∉ Text.octets c := by
  intro hmem
  by_cases hlow : c.toNat < 0x80
  · rw [octets_of_lt hlow, List.mem_singleton] at hmem
    exact h (by rw [← Char.ofNat_toNat c, ← hmem])
  · have hle := le_of_mem_octets (Nat.not_lt.mp hlow) hmem
    omega

theorem encode_eq_cons {cs : List Char} (h : encode cs = b :: rest) (hb : b < 0x80) :
    ∃ c cs', cs = c :: cs' ∧ c.toNat = b ∧ encode cs' = rest := by
  cases cs with
  | nil => cases h
  | cons c cs =>
    rw [encode, List.flatMap_cons] at h
    by_cases hc : c.toNat < 0x80
    · rw [octets_of_lt hc] at h
      obtain ⟨hhead, htail⟩ := List.cons.inj h
      exact ⟨c, cs, rfl, hhead, htail⟩
    · obtain ⟨first, tail, hoctets, -⟩ := octets_head c
      rw [hoctets] at h
      have hle : 0x80 ≤ first := le_of_mem_octets (Nat.not_lt.mp hc) (by simp [hoctets])
      have hhead : first = b := (List.cons.inj h).1
      omega

theorem scan_percent {cs : List Char}
    (h : ∀ a b rest, cs = a :: b :: rest → octet? a b = none) :
    scan signedPair? (0x25 :: encode cs) = 0x25 :: scan signedPair? (encode cs) := by
  refine scan_verbatim fun a b tail heq => ?_
  by_contra hsome
  obtain ⟨octet, hsome⟩ := Option.ne_none_iff_exists'.mp hsome
  obtain ⟨ha, hb⟩ := signedPair?_lt hsome
  obtain ⟨first, cs, rfl, rfl, hrest⟩ := encode_eq_cons (List.cons.inj heq).2 ha
  obtain ⟨second, cs, rfl, rfl, -⟩ := encode_eq_cons hrest hb
  have hnone := h first second cs rfl
  rw [octet?_eq_signedPair?, hsome] at hnone
  cases hnone

theorem octets_eq_scan (cs : List Char) : octets cs = scan signedPair? (encode cs) := by
  fun_induction octets cs with
  | case1 => rfl
  | case2 a b rest octet hoctet ih =>
    rw [octet?_eq_signedPair?] at hoctet
    obtain ⟨ha, hb⟩ := signedPair?_lt hoctet
    rw [encode_cons_of_lt (by decide), encode_cons_of_lt ha, encode_cons_of_lt hb, ih]
    simp [scan, hoctet]
  | case3 a b rest hnone ih =>
    rw [ih]
    refine (scan_percent ?_).symm
    rintro _ _ _ ⟨⟩
    exact hnone
  | case4 c rest hnot ih =>
    rw [ih]
    by_cases hc : c = '%'
    · subst hc
      refine (scan_percent ?_).symm
      rintro a b tail rfl
      exact absurd rfl (hnot a b tail rfl)
    · exact (scan_append (percent_not_mem_octets hc)).symm

def PlusEscape (bytes : List Nat) : Prop := ∃ x, (hex? x).isSome ∧ [0x25, 0x2B, x] <:+: bytes

theorem plusEscape_cons :
    PlusEscape (b :: rest) ↔
      (∃ x tail, b :: rest = 0x25 :: 0x2B :: x :: tail ∧ (hex? x).isSome) ∨ PlusEscape rest := by
  constructor
  · rintro ⟨x, hx, h⟩
    rcases List.infix_cons_iff.mp h with ⟨tail, h⟩ | h
    · exact .inl ⟨x, tail, h.symm, hx⟩
    · exact .inr ⟨x, hx, h⟩
  · rintro (⟨x, tail, h, hx⟩ | ⟨x, hx, h⟩)
    · exact ⟨x, hx, List.infix_cons_iff.mpr (.inl ⟨tail, h.symm⟩)⟩
    · exact ⟨x, hx, List.infix_cons_iff.mpr (.inr h)⟩

theorem plusEscape_cons_of_ne (h : b ≠ 0x25) : PlusEscape (b :: rest) ↔ PlusEscape rest := by
  rw [plusEscape_cons, or_iff_right]
  rintro ⟨_, _, heq, -⟩
  exact h (List.cons.inj heq).1

theorem plusEscape_append {part : List Nat} (h : 0x25 ∉ part) :
    PlusEscape (part ++ rest) ↔ PlusEscape rest := by
  induction part with
  | nil => rfl
  | cons b part ih =>
    obtain ⟨hb, hpart⟩ := not_or.mp (List.mem_cons.not.mp h)
    rw [List.cons_append, plusEscape_cons_of_ne (Ne.symm hb), ih hpart]

theorem plusEscape_encode {cs : List Char} :
    PlusEscape (encode cs) ↔ ∃ c, (hex? c.toNat).isSome ∧ ['%', '+', c] <:+: cs := by
  induction cs with
  | nil => simp [PlusEscape, encode]
  | cons first cs ih =>
    have hencode : encode (first :: cs) = Text.octets first ++ encode cs := rfl
    simp only [List.infix_cons_iff, and_or_left, exists_or, ← ih, hencode]
    by_cases hfirst : first = '%'
    · subst hfirst
      refine plusEscape_cons.trans (or_congr_left ?_)
      constructor
      · rintro ⟨x, tail, heq, hx⟩
        obtain ⟨plus, cs, rfl, hplus, hrest⟩ := encode_eq_cons (List.cons.inj heq).2 (by decide)
        obtain ⟨c, cs, rfl, rfl, -⟩ := encode_eq_cons hrest (hex?_bounds hx).2
        obtain rfl : plus = '+' := by rw [← Char.ofNat_toNat plus, hplus]
        exact ⟨c, hx, cs, rfl⟩
      · rintro ⟨c, hc, tail, heq⟩
        obtain rfl : '+' :: c :: tail = cs := (List.cons.inj heq).2
        refine ⟨c.toNat, encode tail, ?_, hc⟩
        rw [encode_cons_of_lt (by decide), encode_cons_of_lt (hex?_bounds hc).2]
        rfl
    · rw [plusEscape_append (percent_not_mem_octets hfirst), or_iff_right]
      rintro ⟨c, -, tail, heq⟩
      exact hfirst (List.cons.inj heq).1.symm

theorem signedPair?_of_hexPair? {octet : Nat} (h : hexPair? a b = some octet) :
    signedPair? a b = some octet := by
  have ha := hex?_bounds (hexPair?_eq_some h).1
  rw [signedPair?, if_neg (by omega), h]

theorem length_decodeFrom_single {p : Begun} (hp : p.Waits) (hb : b < 0x80) :
    (decodeFrom p (b :: rest)).length = p.pending + 1 + (decodeFrom between rest).length := by
  have hstart : start b = ([Char.ofNat b], between) := by simp [start, opening, hb]
  have hlow := hp.low
  have hout : ¬(p.low ≤ b ∧ b ≤ p.high) := by omega
  rw [decodeFrom_cons]
  by_cases howed : p.owed = 0
  · simp [feed, howed, hstart, Begun.pending, Nat.add_comm]
  · simp [feed, howed, hout, hstart, Begun.pending]
    omega

def Shorter (first second : List Nat) : Prop :=
  ∀ p : Begun, p.Waits → (decodeFrom p first).length < (decodeFrom p second).length

theorem Shorter.cons {first second : List Nat} (h : Shorter first second) (b : Nat) :
    Shorter (b :: first) (b :: second) := by
  intro p hp
  rw [decodeFrom_cons, decodeFrom_cons, List.length_append, List.length_append]
  have hless := h _ (feed_spec hp b).1
  omega

theorem scan_sign {octet : Nat} (h : hex? b = some octet) :
    scan hexPair? (0x25 :: 0x2B :: b :: rest) = 0x25 :: 0x2B :: b :: scan hexPair? rest := by
  rw [scan_verbatim, scan_verbatim, scan_verbatim]
  · rintro _ _ _ ⟨⟩
    exact absurd (hex?_bounds (Option.isSome_of_eq_some h)).1 (by decide)
  · rintro _ _ _ ⟨⟩
  · rintro _ _ _ ⟨⟩
    rfl

theorem shorter_sign {octet : Nat} {first second : List Nat} (h : hex? b = some octet)
    (hle : (decodeFrom between first).length ≤ (decodeFrom between second).length) :
    Shorter (octet :: first) (0x25 :: 0x2B :: b :: second) := by
  intro p hp
  have hoctet := hex?_lt h
  have hb := (hex?_bounds (Option.isSome_of_eq_some h)).2
  rw [length_decodeFrom_single hp (by omega), length_decodeFrom_single hp (by omega),
    length_decodeFrom_single waits_between (by omega), length_decodeFrom_single waits_between hb]
  omega

/-- Without a plus sign in an escape the two scans agree; with one the first is read as less. -/
theorem scan_cases (bytes : List Nat) :
    ¬ PlusEscape bytes ∧ scan signedPair? bytes = scan hexPair? bytes ∨
      PlusEscape bytes ∧ Shorter (scan signedPair? bytes) (scan hexPair? bytes) := by
  fun_induction scan signedPair? bytes with
  | case1 => exact .inl ⟨by simp [PlusEscape], rfl⟩
  | case2 a b rest octet hsigned ih =>
    cases hpair : hexPair? a b with
    | some octet' =>
      cases hsigned.symm.trans (signedPair?_of_hexPair? hpair)
      have ha := hex?_bounds (hexPair?_eq_some hpair).1
      have hb := hex?_bounds (hexPair?_eq_some hpair).2
      have hplus : PlusEscape (0x25 :: a :: b :: rest) ↔ PlusEscape rest := by
        rw [plusEscape_cons, or_iff_right, plusEscape_cons_of_ne (by omega),
          plusEscape_cons_of_ne (by omega)]
        rintro ⟨_, _, ⟨⟩, -⟩
        omega
      simp only [scan, hpair, hplus]
      exact ih.imp (fun h => ⟨h.1, by rw [h.2]⟩) fun h => ⟨h.1, h.2.cons octet⟩
    | none =>
      -- The sign is kept by the strict scan and taken by the other one.
      obtain rfl : a = 0x2B := by
        by_contra ha
        rw [signedPair?, if_neg ha, hpair] at hsigned
        cases hsigned
      rw [signedPair?, if_pos rfl] at hsigned
      refine .inr ⟨plusEscape_cons.mpr (.inl ⟨b, rest, rfl, by simp [hsigned]⟩), ?_⟩
      rw [scan_sign hsigned]
      refine shorter_sign hsigned ?_
      rcases ih with ⟨-, h⟩ | ⟨-, h⟩
      · rw [h]
      · exact Nat.le_of_lt (h _ waits_between)
  | case3 a b rest hsigned ih =>
    have hpair : hexPair? a b = none := by
      by_contra hsome
      obtain ⟨_, hsome⟩ := Option.ne_none_iff_exists'.mp hsome
      rw [signedPair?_of_hexPair? hsome] at hsigned
      cases hsigned
    have hplus : PlusEscape (0x25 :: a :: b :: rest) ↔ PlusEscape (a :: b :: rest) := by
      rw [plusEscape_cons, or_iff_right]
      rintro ⟨_, _, ⟨⟩, hx⟩
      rw [signedPair?, if_pos rfl] at hsigned
      simp [hsigned] at hx
    simp only [scan, hpair, hplus]
    exact ih.imp (fun h => ⟨h.1, by rw [h.2]⟩) fun h => ⟨h.1, h.2.cons _⟩
  | case4 b rest hnot ih =>
    have hstrict : scan hexPair? (b :: rest) = b :: scan hexPair? rest :=
      scan_verbatim fun a b' tail heq => absurd (List.cons.inj heq).2
        (hnot a b' tail (List.cons.inj heq).1)
    have hplus : PlusEscape (b :: rest) ↔ PlusEscape rest := by
      rw [plusEscape_cons, or_iff_right]
      rintro ⟨x, tail, heq, -⟩
      exact hnot _ _ _ (List.cons.inj heq).1 (List.cons.inj heq).2
    rw [hstrict, hplus]
    exact ih.imp (fun h => ⟨h.1, by rw [h.2]⟩) fun h => ⟨h.1, h.2.cons b⟩

/-- Every text is read as the octets with all escapes undone, among them those of a sign and one
digit; so it is read as its proper escapes say if and only if there are no others. -/
theorem decode_scanned (text : String) :
    Lossy (scan signedPair? (stored text)) (decode text).toList ∧
      (Lossy (scan hexPair? (stored text)) (decode text).toList ↔
        ∀ c, (hex? c.toNat).isSome → ¬ ['%', '+', c] <:+: text.toList) := by
  have hdecode : (decode text).toList = Text.decode (scan signedPair? (stored text)) := by
    rw [decode, String.toList_ofList, octets_eq_scan, stored_eq_encode]
  refine ⟨lossy_iff.mpr hdecode, ?_⟩
  have hnone : (∀ c, (hex? c.toNat).isSome → ¬ ['%', '+', c] <:+: text.toList) ↔
      ¬ PlusEscape (stored text) := by
    simp [stored_eq_encode, plusEscape_encode]
  rw [lossy_iff, hdecode, hnone]
  rcases scan_cases (stored text) with ⟨hplus, hscan⟩ | ⟨hplus, hless⟩
  · exact ⟨fun _ => hplus, fun _ => by rw [hscan]⟩
  · have hne := Nat.ne_of_lt (hless between waits_between)
    exact ⟨fun h => absurd (congrArg List.length h) hne, fun h => absurd hplus h⟩

/-- A sign and a digit are taken for an escape of a line feed, although no two digits stand
there. -/
theorem decode_plus_sign : decode "%+A" = "\n" ∧
    ¬ Lossy (scan hexPair? (stored "%+A")) (decode "%+A").toList := by
  rw [lossy_iff]
  decide

end Percent

end SchemaBeans
