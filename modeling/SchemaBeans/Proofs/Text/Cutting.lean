import Mathlib.Tactic.ByContra
import SchemaBeans.Text.Split

/-! # Cutting and joining text

A cut is known by what it takes apart: the text is the parts with the separator between them, and
the part on the near side of the separator does not hold it. -/
namespace SchemaBeans.Text

variable {sep c : Char} {cs before after : List Char}

theorem cutFirst_append (hsep : sep ∉ before) (after : List Char) :
    cutFirst sep (before ++ sep :: after) = some (before, after) := by
  induction before with
  | nil => simp [cutFirst]
  | cons c cs ih =>
    simp only [List.mem_cons, not_or] at hsep
    simp [cutFirst, Ne.symm hsep.1, ih hsep.2]

theorem cutFirst_eq_none : cutFirst sep cs = none ↔ sep ∉ cs := by
  induction cs with
  | nil => simp [cutFirst]
  | cons c cs ih =>
    by_cases hc : c = sep
    · simp [cutFirst, hc]
    · simp [cutFirst, hc, ih, Ne.symm hc]

theorem cutFirst_eq_some :
    cutFirst sep cs = some (before, after) ↔ cs = before ++ sep :: after ∧ sep ∉ before := by
  constructor
  · intro h
    induction cs generalizing before after with
    | nil => simp [cutFirst] at h
    | cons c cs ih =>
      by_cases hc : c = sep
      · simp only [cutFirst, hc, if_true, Option.some.injEq, Prod.mk.injEq] at h
        obtain ⟨rfl, rfl⟩ := h
        simp [hc]
      · simp only [cutFirst, hc, if_false, Option.map_eq_some_iff] at h
        obtain ⟨⟨first, rest⟩, hcut, heq⟩ := h
        obtain ⟨rfl, hfirst⟩ := ih hcut
        cases heq
        simp [Ne.symm hc, hfirst]
  · rintro ⟨rfl, hsep⟩
    exact cutFirst_append hsep after

theorem cutLast_eq_none : cutLast sep cs = none ↔ sep ∉ cs := by
  induction cs with
  | nil => simp [cutLast]
  | cons c cs ih =>
    cases hcut : cutLast sep cs with
    | none =>
      by_cases hc : c = sep
      · simp [cutLast, hcut, hc]
      · simp [cutLast, hcut, hc, ih.mp hcut, Ne.symm hc]
    | some cut =>
      have hmem : sep ∈ cs := by
        by_contra hnot
        rw [ih.mpr hnot] at hcut
        cases hcut
      simp [cutLast, hcut, hmem]

theorem cutLast_append (hsep : sep ∉ after) (before : List Char) :
    cutLast sep (before ++ sep :: after) = some (before, after) := by
  induction before with
  | nil => simp [cutLast, cutLast_eq_none.mpr hsep]
  | cons c cs ih => simp [cutLast, ih]

theorem cutLast_eq_some :
    cutLast sep cs = some (before, after) ↔ cs = before ++ sep :: after ∧ sep ∉ after := by
  constructor
  · intro h
    induction cs generalizing before with
    | nil => simp [cutLast] at h
    | cons c cs ih =>
      cases hcut : cutLast sep cs with
      | none =>
        simp only [cutLast, hcut, Option.ite_none_right_eq_some, Option.some.injEq,
          Prod.mk.injEq] at h
        obtain ⟨rfl, rfl, rfl⟩ := h
        exact ⟨rfl, cutLast_eq_none.mp hcut⟩
      | some cut =>
        simp only [cutLast, hcut, Option.some.injEq, Prod.mk.injEq] at h
        obtain ⟨rfl, rfl⟩ := h
        obtain ⟨rfl, hafter⟩ := ih hcut
        exact ⟨rfl, hafter⟩
  · rintro ⟨rfl, hsep⟩
    exact cutLast_append hsep before

theorem join_cons {sep piece : List Char} {others : List (List Char)} (h : others ≠ []) :
    join sep (piece :: others) = piece ++ sep ++ join sep others := by
  cases others with
  | nil => exact absurd rfl h
  | cons next rest => rfl

theorem mem_join {sep : List Char} {parts : List (List Char)} (h : c ∈ join sep parts) :
    c ∈ sep ∨ ∃ part ∈ parts, c ∈ part := by
  induction parts with
  | nil => simp [join] at h
  | cons part others ih =>
    by_cases hothers : others = []
    · subst hothers
      exact .inr ⟨part, by simp, h⟩
    · rw [join_cons hothers, List.mem_append, List.mem_append] at h
      rcases h with (hpart | hsep) | hrest
      · exact .inr ⟨part, by simp, hpart⟩
      · exact .inl hsep
      · refine (ih hrest).imp_right ?_
        rintro ⟨other, hother, hc⟩
        exact ⟨other, List.mem_cons_of_mem _ hother, hc⟩

theorem pieces_of_not_mem (h : sep ∉ cs) : pieces sep cs = [cs] := by
  induction cs with
  | nil => rfl
  | cons c cs ih =>
    simp only [List.mem_cons, not_or] at h
    simp [pieces, Ne.symm h.1, ih h.2]

theorem pieces_append (before after : List Char) :
    pieces sep (before ++ sep :: after) = pieces sep before ++ pieces sep after := by
  induction before with
  | nil => simp [pieces]
  | cons c cs ih =>
    by_cases hc : c = sep
    · simp [pieces, hc, ih]
    · cases hp : pieces sep cs with
      | nil => exact absurd hp (pieces_ne_nil sep cs)
      | cons piece others => simp [pieces, hc, ih, hp]

theorem not_mem_of_mem_pieces {piece : List Char} (h : piece ∈ pieces sep cs) : sep ∉ piece := by
  induction cs generalizing piece with
  | nil =>
    rw [pieces, List.mem_singleton] at h
    simp [h]
  | cons first rest ih =>
    by_cases hfirst : first = sep
    · simp only [pieces, hfirst, if_true, List.mem_cons] at h
      rcases h with rfl | h
      · simp
      · exact ih h
    · cases hp : pieces sep rest with
      | nil => exact absurd hp (pieces_ne_nil sep rest)
      | cons next others =>
        simp only [pieces, hfirst, if_false, hp, List.mem_cons] at h
        rcases h with rfl | h
        · have hnext : sep ∉ next := ih (by simp [hp])
          simpa [Ne.symm hfirst] using hnext
        · exact ih (by simp [hp, h])

/-- A piece is part of the text. -/
theorem mem_of_mem_pieces {piece : List Char} (h : piece ∈ pieces sep cs) (hc : c ∈ piece) :
    c ∈ cs := by
  induction cs generalizing piece with
  | nil =>
    rw [pieces, List.mem_singleton] at h
    rwa [h] at hc
  | cons first rest ih =>
    by_cases hfirst : first = sep
    · simp only [pieces, hfirst, if_true, List.mem_cons] at h
      rcases h with rfl | h
      · cases hc
      · exact List.mem_cons_of_mem _ (ih h hc)
    · cases hp : pieces sep rest with
      | nil => exact absurd hp (pieces_ne_nil sep rest)
      | cons next others =>
        simp only [pieces, hfirst, if_false, hp, List.mem_cons] at h
        rcases h with rfl | h
        · rcases List.mem_cons.mp hc with rfl | hc
          · simp
          · exact List.mem_cons_of_mem _ (ih (by simp [hp]) hc)
        · exact List.mem_cons_of_mem _ (ih (by simp [hp, h]) hc)

theorem pieces_join {parts : List (List Char)} (hne : parts ≠ [])
    (h : ∀ part ∈ parts, sep ∉ part) : pieces sep (join [sep] parts) = parts := by
  induction parts with
  | nil => exact absurd rfl hne
  | cons part others ih =>
    have hpart := pieces_of_not_mem (h part (by simp))
    by_cases hothers : others = []
    · subst hothers
      exact hpart
    · rw [join_cons hothers, List.append_assoc, List.singleton_append, pieces_append, hpart,
        ih hothers fun other hother => h other (List.mem_cons_of_mem _ hother)]
      rfl

end SchemaBeans.Text
