import SchemaBeans.Location
import SchemaBeans.Proofs.Text.Cutting

/-! # Pointers

A segment that is escaped and put behind a pointer is read back as the last segment, so going down
from a value segment by segment is the same as looking up the longer pointer. -/
namespace SchemaBeans

namespace Pointer

theorem escape_plain {c : Char} (hc : c ≠ '~' ∧ c ≠ '0' ∧ c ≠ '1') {segment : List Char}
    (h : c ∈ escape segment) : c ∈ segment := by
  unfold escape at h
  obtain ⟨d, hd, h⟩ := List.mem_flatMap.mp h
  unfold escapedChar at h
  split at h
  · simp [hc.1, hc.2.1] at h
  · split at h
    · simp [hc.1, hc.2.2] at h
    · rw [List.mem_singleton.mp h]
      exact hd

theorem not_mem_escape (segment : List Char) : '/' ∉ escape segment := by
  intro h
  unfold escape at h
  obtain ⟨d, hd, h⟩ := List.mem_flatMap.mp h
  unfold escapedChar at h
  split at h
  · simp at h
  · split at h
    · simp at h
    · rename_i hne
      exact hne (List.mem_singleton.mp h).symm

theorem push_inj {p q s t : String} (h : push p s = push q t) :
    p = q ∧ escape s.toList = escape t.toList := by
  unfold push at h
  have hlist := String.ofList_injective h
  have hcut := Text.cutLast_append (not_mem_escape s.toList) p.toList
  rw [hlist, Text.cutLast_append (not_mem_escape t.toList)] at hcut
  obtain ⟨hpq, hst⟩ := Prod.mk.inj (Option.some.inj hcut)
  exact ⟨String.toList_inj.mp hpq.symm, hst.symm⟩

theorem replacePair_cons {a b x : Char} (h : x ≠ a) (new rest : List Char) :
    Text.replacePair a b new (x :: rest) = x :: Text.replacePair a b new rest := by
  cases rest with
  | nil => rfl
  | cons y rest => simp [Text.replacePair, h]

/-- What is left of an escaped segment when the slashes are read. -/
def halfEscaped (segment : List Char) : List Char :=
  segment.flatMap fun c => if c = '~' then ['~', '0'] else [c]

theorem replacePair_escape (segment : List Char) :
    Text.replacePair '~' '1' ['/'] (escape segment) = halfEscaped segment := by
  induction segment with
  | nil => rfl
  | cons c rest ih =>
    unfold escape halfEscaped at *
    rw [List.flatMap_cons, List.flatMap_cons, ← ih]
    by_cases htilde : c = '~'
    · subst htilde
      have hzero := replacePair_cons (a := '~') (b := '1') (x := '0') (by decide) ['/']
      simp [escapedChar, Text.replacePair, hzero]
    · by_cases hslash : c = '/'
      · subst hslash
        simp [escapedChar, Text.replacePair]
      · simp [escapedChar, htilde, hslash, replacePair_cons]

theorem unescape_escape (segment : List Char) : unescape (escape segment) = segment := by
  have hhalf : ∀ segment, Text.replacePair '~' '0' ['~'] (halfEscaped segment) = segment := by
    intro segment
    induction segment with
    | nil => rfl
    | cons c rest ih =>
      unfold halfEscaped at *
      rw [List.flatMap_cons]
      by_cases htilde : c = '~'
      · subst htilde
        simp [Text.replacePair, ih]
      · simp [htilde, replacePair_cons, ih]
  rw [unescape, replacePair_escape, hhalf]

theorem segments?_push {pointer : String} {segments : List String}
    (h : segments? pointer = some segments) (segment : String) :
    segments? (push pointer segment) = some (segments ++ [segment]) := by
  have hlast : Text.pieces '/' (escape segment.toList) = [escape segment.toList] :=
    Text.pieces_of_not_mem (not_mem_escape _)
  unfold segments? push at *
  rw [String.toList_ofList]
  split at h
  · rename_i hempty
    cases h
    simp [hempty, hlast, unescape_escape]
  · rename_i rest hrest
    cases h
    simp [hrest, Text.pieces_append, hlast, unescape_escape]
  · cases h

theorem segments?_pushAll {pointer : String} {segments : List String} : ∀ (more : List String),
    segments? pointer = some segments →
      segments? (more.foldl push pointer) = some (segments ++ more) := by
  intro more
  induction more generalizing pointer segments with
  | nil => simp
  | cons segment more ih =>
    intro h
    rw [List.foldl_cons, ih (segments?_push h segment), List.append_assoc, List.singleton_append]

/-- A longer pointer has segments only if the shorter one has. -/
theorem segments?_of_push {pointer segment : String} {all : List String}
    (h : segments? (push pointer segment) = some all) :
    ∃ above, segments? pointer = some above ∧ all = above ++ [segment] := by
  cases habove : segments? pointer with
  | some above =>
    rw [segments?_push habove] at h
    exact ⟨above, rfl, (Option.some.inj h).symm⟩
  | none =>
    unfold segments? at habove
    split at habove
    · cases habove
    · cases habove
    · rename_i hempty hslash
      obtain ⟨c, rest, hlist⟩ := List.exists_cons_of_ne_nil hempty
      have hne : c ≠ '/' := fun hc => hslash rest (hc ▸ hlist)
      rw [segments?, push, String.toList_ofList, hlist, List.cons_append] at h
      split at h
      · rename_i heq
        cases heq
      · rename_i heq
        exact absurd (List.cons.inj heq).1 hne
      · cases h

theorem segments?_of_pushAll {pointer : String} {all : List String} : ∀ (more : List String),
    segments? (more.foldl push pointer) = some all →
      ∃ above, segments? pointer = some above ∧ all = above ++ more := by
  intro more
  induction more generalizing pointer with
  | nil => exact fun h => ⟨all, h, (List.append_nil all).symm⟩
  | cons segment more ih =>
    intro h
    obtain ⟨inner, hinner, rfl⟩ := ih h
    obtain ⟨above, habove, rfl⟩ := segments?_of_push hinner
    exact ⟨above, habove, List.append_assoc _ _ _⟩

end Pointer

theorem Json.lookup?_below {v part : Json} {pointer : String} (h : v.lookup? pointer = some part)
    (segments : List String) :
    v.lookup? (segments.foldl Pointer.push pointer) = part.descend? segments := by
  unfold lookup? at *
  obtain ⟨above, habove, hpart⟩ := Option.bind_eq_some_iff.mp h
  rw [Pointer.segments?_pushAll segments habove]
  unfold descend? at *
  rw [Option.bind_some, List.foldlM_append, hpart]
  rfl

end SchemaBeans
