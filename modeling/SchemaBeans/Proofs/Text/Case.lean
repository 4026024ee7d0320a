import Mathlib
import SchemaBeans.Proofs.Text.Cutting
import SchemaBeans.Text.Words

/-! # The case of characters

The first 128 characters have the capital and small forms that they have in the Latin alphabet
alone. The capital form of no character holds a small letter of it, and so words in capitals hold
none. -/
namespace SchemaBeans.Text

variable {c other : Char}

/-- The characters of an identifier are letters, digits and two signs of the first 128. -/
theorem toNat_lt_of_isIdentifierChar (h : isIdentifierChar c = true) : c.toNat < 128 := by
  have h : (decide ('A'.val ≤ c.val ∧ c.val ≤ 'Z'.val) ||
    (decide ('a'.val ≤ c.val) && decide (c.val ≤ 'z'.val)) ||
    (decide ('0'.val ≤ c.val) && decide (c.val ≤ '9'.val)) || decide (c = '_') ||
    decide (c = '$')) = true := h
  simp only [Bool.or_eq_true, Bool.and_eq_true, decide_eq_true_eq] at h
  rcases h with (((h | h) | h) | rfl) | rfl
  all_goals
    first
      | decide
      | exact Nat.lt_of_le_of_lt (UInt32.le_iff_toNat_le.mp h.2) (by decide)

theorem isIdentifierChar_iff :
    isIdentifierChar c = true ↔ c.isAlphanum = true ∨ c = '_' ∨ c = '$' := by
  simp [isIdentifierChar, or_assoc]

/-- The other form of a character is listed for it, comes from the run it is in, or is itself. -/
theorem mem_otherForm {expansions : List (Nat × List Nat)} {runs : List CaseRun}
    (h : other ∈ otherForm expansions runs c) :
    (∃ entry ∈ expansions, other ∈ entry.2.map Char.ofNat) ∨
    (∃ run ∈ runs, run.contains c.toNat = true ∧ other = Char.ofNat (c.toNat + run.shift).toNat) ∨
    (∀ run ∈ runs, run.contains c.toNat = false) ∧ other = c := by
  unfold otherForm at h
  split at h
  · rename_i codes hlookup
    obtain ⟨before, after, htable, -⟩ := List.lookup_eq_some_iff.mp hlookup
    exact .inl ⟨_, htable ▸ List.mem_append_right _ List.mem_cons_self, h⟩
  · split at h
    · rename_i run hfind
      have hcontains := List.find?_some hfind
      exact .inr (.inl ⟨run, List.mem_of_find?_eq_some hfind, hcontains, List.mem_singleton.mp h⟩)
    · rename_i hfind
      refine .inr (.inr ⟨fun run hrun => ?_, List.mem_singleton.mp h⟩)
      exact Bool.not_eq_true _ ▸ List.find?_eq_none.mp hfind run hrun

theorem otherForm_first {expansions : List (Nat × List Nat)} {run : CaseRun}
    {runs : List CaseRun} (hexpansions : ∀ entry ∈ expansions, 128 ≤ entry.1)
    (hruns : ∀ other ∈ runs, 128 ≤ other.first) {c : Char} (h : c.toNat < 128) :
    otherForm expansions (run :: runs) c =
      if run.contains c.toNat then [Char.ofNat (c.toNat + run.shift).toNat] else [c] := by
  have hlookup : expansions.lookup c.toNat = none :=
    List.lookup_eq_none_iff.mpr fun entry hentry => by
      have := hexpansions entry hentry
      simp only [bne_iff_ne]
      omega
  have hfind : runs.find? (·.contains c.toNat) = none :=
    List.find?_eq_none.mpr fun other hother => by
      have := hruns other hother
      simp only [CaseRun.contains, Bool.and_eq_true, decide_eq_true_eq]
      omega
  rw [otherForm, hlookup, List.find?_cons, hfind]
  cases run.contains c.toNat <;> rfl

theorem toNat_ofNat_of_pos {n : Nat} (h : 0 < (Char.ofNat n).toNat) : (Char.ofNat n).toNat = n := by
  rw [Char.toNat_ofNat] at h ⊢
  split
  · rfl
  · rename_i hinvalid
    rw [if_neg hinvalid] at h
    exact absurd h (Nat.lt_irrefl 0)

theorem isLower_bounds (h : c.isLower = true) : 0x61 ≤ c.toNat ∧ c.toNat ≤ 0x7A := by
  simpa [Char.isLower, UInt32.le_iff_toNat_le] using h

theorem not_isLower_of_mem_upper (h : other ∈ upper c) : other.isLower = false := by
  have hexpansions : ∀ entry ∈ upperExpansions, ∀ code ∈ entry.2,
      (Char.ofNat code).isLower = false := by decide +kernel
  have hruns : ∀ run ∈ upperRuns, 0x7A < (run.first : Int) + run.shift ∨
      (run.last : Int) + run.shift < 0x61 := by decide +kernel
  rw [← Bool.not_eq_true]
  intro hsmall
  obtain ⟨hlow, hhigh⟩ := isLower_bounds hsmall
  rcases mem_otherForm h with ⟨entry, hentry, hother⟩ | ⟨run, hrun, hin, rfl⟩ | ⟨hout, rfl⟩
  · obtain ⟨code, hcode, rfl⟩ := List.mem_map.mp hother
    rw [hexpansions entry hentry code hcode] at hsmall
    cases hsmall
  · have hcode := toNat_ofNat_of_pos (Nat.lt_of_lt_of_le (by decide) hlow)
    rw [hcode] at hlow hhigh
    simp only [CaseRun.contains, Bool.and_eq_true, decide_eq_true_eq] at hin
    have := hruns run hrun
    omega
  · have hletter : CaseRun.contains ⟨0x61, 0x7A, 1, -32⟩ other.toNat = true := by
      simp [CaseRun.contains, Nat.mod_one, hlow, hhigh]
    rw [hout _ (by decide +kernel)] at hletter
    cases hletter

theorem intercalate_eq_join (sep : List Char) (parts : List (List Char)) :
    List.intercalate sep parts = join sep parts := by
  induction parts with
  | nil => rfl
  | cons part others ih =>
    by_cases hothers : others = []
    · rw [hothers, List.intercalate_singleton, join]
    · rw [List.intercalate_cons_of_ne_nil hothers, join_cons hothers, ih]

theorem not_isLower_of_mem_shouted {text : List Char} (h : c ∈ shouted text) :
    c.isLower = false := by
  rw [shouted, intercalate_eq_join] at h
  rcases mem_join h with hsep | ⟨part, hpart, hc⟩
  · rw [List.mem_singleton.mp hsep]
    decide
  · obtain ⟨word, -, rfl⟩ := List.mem_map.mp hpart
    obtain ⟨letter, -, hletter⟩ := List.mem_flatMap.mp hc
    exact not_isLower_of_mem_upper hletter

section FirstCharacters

variable (h : c.toNat < 128)

include h

theorem of_forall_fin {P : Char → Prop} (hall : ∀ n : Fin 128, P (Char.ofNat n)) : P c :=
  Char.ofNat_toNat c ▸ hall ⟨c.toNat, h⟩

theorem lower_eq_toLower : lower c = [c.toLower] := by
  unfold lower lowerRuns
  rw [otherForm_first (by decide +kernel) (by decide +kernel) h]
  exact of_forall_fin h (P := fun c =>
    (if CaseRun.contains ⟨0x41, 0x5A, 1, 32⟩ c.toNat then [Char.ofNat (c.toNat + 32 : Int).toNat]
      else [c]) = [c.toLower]) (by decide)

theorem upper_eq_toUpper : upper c = [c.toUpper] := by
  unfold upper upperRuns
  rw [otherForm_first (by decide +kernel) (by decide +kernel) h]
  exact of_forall_fin h (P := fun c =>
    (if CaseRun.contains ⟨0x61, 0x7A, 1, -32⟩ c.toNat then [Char.ofNat (c.toNat + -32 : Int).toNat]
      else [c]) = [c.toUpper]) (by decide)

theorem toNat_toLower_lt : c.toLower.toNat < 128 :=
  of_forall_fin h (P := fun c => c.toLower.toNat < 128) (by decide)

theorem toNat_toUpper_lt : c.toUpper.toNat < 128 :=
  of_forall_fin h (P := fun c => c.toUpper.toNat < 128) (by decide)

end FirstCharacters

end SchemaBeans.Text
