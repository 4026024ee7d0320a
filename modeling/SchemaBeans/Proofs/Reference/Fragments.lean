import SchemaBeans.Proofs.Json.Strings
import SchemaBeans.Proofs.Text.Octets

/-! # Fragments of references

What follows the `#` of a reference becomes the pointer of its target, and that pointer becomes the
fragment of the target's text. Neither step makes it longer, as long as no document has a `#` in its
name; so the pointers that references lead to stay short, however often the references move. -/
namespace SchemaBeans

open Text

namespace Document

variable {c : Char} {name : List Char}

theorem mem_normal (h : c ∈ normal name) : c = '/' ∨ c ∈ name := by
  cases hsplit : splitAuthority name with
  | none =>
    rw [normal_of_none hsplit] at h
    exact mem_cleaned h
  | some parts =>
    obtain ⟨authority, path⟩ := parts
    rw [normal_of_authority hsplit] at h
    rw [(splitAuthority_some hsplit).1]
    rcases List.mem_append.mp h with h | h
    · exact .inr (List.mem_append_left _ h)
    · exact (mem_cleaned h).imp_right (List.mem_append_right _)

theorem mem_split (h : c ∈ (split name).1) : c ∈ name := by
  unfold split at h
  cases hsplit : splitAuthority name with
  | none => simp [hsplit] at h
  | some parts =>
    rw [hsplit] at h
    rw [(splitAuthority_some hsplit).1]
    exact List.mem_append_left _ h

theorem mem_resolve {base relative : String} (h : c ∈ (resolve base relative).toList) :
    c = '/' ∨ c ∈ base.toList ∨ c ∈ relative.toList := by
  unfold resolve at h
  dsimp only at h
  split at h
  · rw [String.toList_ofList] at h
    exact (mem_normal h).imp_right .inr
  · split at h
    · rw [String.toList_ofList] at h
      refine (mem_normal h).imp_right fun h => ?_
      exact (List.mem_append.mp h).imp_left mem_split
    · rw [String.toList_ofList] at h
      rcases mem_normal h with h | h
      · exact .inl h
      · rcases List.mem_append.mp h with h | h
        · split at h
          · rename_i hcut
            rw [(cutLast_eq_some.mp hcut).1]
            exact .inr (.inl (List.mem_append_left _ h))
          · cases h
        · exact (List.mem_cons.mp h).imp_right .inr

end Document

namespace Location

variable {base reference : String} {place : Location}

/-- What follows the first `#`. -/
def fragment (reference : String) : List Char :=
  match cutFirst '#' reference.toList with
  | some (_, fragment) => fragment
  | none => []

theorem fragment_length_le (reference : String) :
    (fragment reference).length ≤ reference.length := by
  unfold fragment
  split
  · rename_i hcut
    have hlength := congrArg List.length (cutFirst_eq_some.mp hcut).1
    simp only [String.length_toList, List.length_append, List.length_cons] at hlength
    omega
  · exact Nat.zero_le _

theorem ofReference_pointer (h : ofReference base reference = .ok place) :
    place.pointer.length ≤ (fragment reference).length := by
  unfold ofReference at h
  unfold fragment
  cases hcut : cutFirst '#' reference.toList with
  | none =>
    simp only [hcut] at h ⊢
    split at h
    · cases h
      exact Nat.le_refl _
    · cases h
  | some cut =>
    simp only [hcut] at h ⊢
    split at h
    · cases h
      simpa using Percent.decode_length_le (String.ofList cut.2)
    · cases h

theorem ofReference_whole_document (hbase : '#' ∉ base.toList)
    (h : ofReference base reference = .ok place) : '#' ∉ place.document.toList := by
  have hwhole : ∀ {relative : String}, '#' ∉ relative.toList →
      '#' ∉ (if relative.isEmpty then base else Document.resolve base relative).toList := by
    intro relative hrelative
    split
    · exact hbase
    · intro hmem
      rcases Document.mem_resolve hmem with h | h | h
      · cases h
      · exact hbase h
      · exact hrelative h
  unfold ofReference at h
  cases hcut : cutFirst '#' reference.toList with
  | none =>
    simp only [hcut] at h
    split at h
    · cases h
      exact hwhole (cutFirst_eq_none.mp hcut)
    · cases h
  | some cut =>
    simp only [hcut] at h
    split at h
    · cases h
      exact hwhole (by simpa using (cutFirst_eq_some.mp hcut).2)
    · cases h

theorem fragment_text (h : '#' ∉ place.document.toList) :
    fragment place.text = place.pointer.toList := by
  unfold fragment text
  by_cases hempty : place.pointer.isEmpty = true
  · rw [if_pos hempty, cutFirst_eq_none.mpr h]
    simpa using hempty
  · rw [if_neg hempty]
    have happend : (place.document ++ "#" ++ place.pointer).toList =
        place.document.toList ++ '#' :: place.pointer.toList := by simp
    rw [happend, cutFirst_append h]

end Location

namespace Json

variable {base s : String} {v w : Json} {n : Nat}

/-- The fragments of the references in a value are short. -/
def Short (n : Nat) (v : Json) : Prop := ∀ s, Holds s v → (Location.fragment s).length ≤ n

theorem Short.anchor (hbase : '#' ∉ base.toList) (h : v.Short n) (hw : v.anchor base = .ok w) :
    w.Short n := by
  intro s hs
  obtain ⟨old, hold, rfl | ⟨target, htarget, rfl⟩⟩ := Holds.of_anchor hw hs
  · exact h _ hold
  · rw [Location.fragment_text (Location.ofReference_whole_document hbase htarget),
      String.length_toList]
    exact Nat.le_trans (Location.ofReference_pointer htarget) (h _ hold)

theorem Short.merge (hv : v.Short n) (hw : w.Short n) : (v.merge w).Short n := by
  intro s hs
  rcases hs.of_merge with h | h
  · exact hv s h
  · exact hw s h

end Json

end SchemaBeans
