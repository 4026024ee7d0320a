import SchemaBeans.Proofs.Decoration.Validation

/-! # Declared bounds

On each side a schema declares an inclusive bound, strict under a flag, and a bound of its own if
there is a number under the exclusive keyword. One of them is recorded: the number replaces the
inclusive bound, whichever of the two is stronger. -/
namespace SchemaBeans

open Check (Side)

namespace Keywords

def limit (k : Keywords) : Side → Option JsonNumber
  | .lower => k.minimum
  | .upper => k.maximum

def exclusive (k : Keywords) : Side → Option ExclusiveBound
  | .lower => k.exclusiveMinimum
  | .upper => k.exclusiveMaximum

inductive Declares (k : Keywords) (side : Side) : Bound → Prop
  | inclusive {m : JsonNumber} (hlimit : k.limit side = some m)
      (hflag : k.exclusive side ≠ some (.flag true)) : Declares k side ⟨m, false⟩
  | strict {m : JsonNumber} (hlimit : k.limit side = some m)
      (hflag : k.exclusive side = some (.flag true)) : Declares k side ⟨m, true⟩
  | exclusive {e : JsonNumber} (hnumber : k.exclusive side = some (.value e)) :
      Declares k side ⟨e, true⟩

structure Replaced (k : Keywords) (side : Side) (b : Bound) (e : JsonNumber) : Prop where
  limit : k.limit side = some b.value
  inclusive : b.exclusive = false
  number : k.exclusive side = some (.value e)

end Keywords

variable {k : Keywords} {side : Side} {b : Bound} {m e : JsonNumber}

namespace Constraints

theorem bound_eq (k : Keywords) (side : Side) :
    (ofKeywords k).bound side = Bound.ofKeywords (k.limit side) (k.exclusive side) := by
  cases side <;> rfl

theorem bound_of_number (h : k.exclusive side = some (.value e)) :
    (ofKeywords k).bound side = some ⟨e, true⟩ := by
  rw [bound_eq, h]
  rfl

theorem declares_of_bound (h : (ofKeywords k).bound side = some b) : k.Declares side b := by
  rw [bound_eq] at h
  cases hexclusive : k.exclusive side with
  | none =>
    rw [hexclusive] at h
    obtain ⟨m, hlimit, rfl⟩ := Option.map_eq_some_iff.mp h
    exact .inclusive hlimit (by simp [hexclusive])
  | some exclusive =>
    rw [hexclusive] at h
    cases exclusive with
    | value e =>
      cases h
      exact .exclusive hexclusive
    | flag flag =>
      obtain ⟨m, hlimit, rfl⟩ := Option.map_eq_some_iff.mp h
      cases flag with
      | false => exact .inclusive hlimit (by simp [hexclusive])
      | true => exact .strict hlimit hexclusive

theorem bound_of_declares (h : k.Declares side b) :
    (ofKeywords k).bound side = some b ∨ ∃ e, k.Replaced side b e := by
  cases h with
  | inclusive hlimit hflag =>
    cases hexclusive : k.exclusive side with
    | none =>
      left
      rw [bound_eq, hlimit, hexclusive]
      rfl
    | some exclusive =>
      cases exclusive with
      | value e => exact .inr ⟨e, hlimit, rfl, hexclusive⟩
      | flag flag =>
        cases flag with
        | true => exact absurd hexclusive hflag
        | false =>
          left
          rw [bound_eq, hlimit, hexclusive]
          rfl
  | strict hlimit hflag =>
    left
    rw [bound_eq, hlimit, hflag]
    rfl
  | exclusive hnumber => exact .inl (bound_of_number hnumber)

end Constraints

def Bound.Subsumed (side : Side) (m e : JsonNumber) : Prop :=
  match side with
  | .lower => ⌈m.rational⌉ ≤ ⌊e.rational⌋ + 1
  | .upper => ⌈e.rational⌉ ≤ ⌊m.rational⌋ + 1

theorem Bound.subsumed_iff : Bound.Subsumed side m e ↔
    ∀ x : Int, (⟨m, false⟩ : Bound).Excludes side x → (⟨e, true⟩ : Bound).Excludes side x := by
  cases side with
  | lower =>
    change ⌈m.rational⌉ ≤ ⌊e.rational⌋ + 1 ↔ ∀ x : Int, (x : ℚ) < m.rational → (x : ℚ) ≤ e.rational
    simp only [← Int.lt_ceil, ← Int.le_floor]
    constructor
    · intro h x hx
      omega
    · intro h
      have := h (⌈m.rational⌉ - 1) (by omega)
      omega
  | upper =>
    change ⌈e.rational⌉ ≤ ⌊m.rational⌋ + 1 ↔ ∀ x : Int, m.rational < (x : ℚ) → e.rational ≤ (x : ℚ)
    simp only [← Int.floor_lt, ← Int.ceil_le]
    constructor
    · intro h x hx
      omega
    · intro h
      have := h (⌊m.rational⌋ + 1) (by omega)
      omega

/-- The recorded bound is a declared one, and it is every declared one but an inclusive bound
beside a number under the exclusive keyword, which the number replaces. So it excludes every
integer that a declared bound excludes exactly if no inclusive bound is stronger than the number
that replaces it. -/
theorem Constraints.recorded_bound (k : Keywords) (side : Side) :
    (∀ b, (ofKeywords k).bound side = some b → k.Declares side b) ∧
    (∀ b, k.Declares side b → (ofKeywords k).bound side = some b ∨
      ∃ e, k.Replaced side b e ∧ (ofKeywords k).bound side = some ⟨e, true⟩) ∧
    ((∀ b, k.Declares side b → ∀ x : Int, b.Excludes side x →
        ∃ recorded, (ofKeywords k).bound side = some recorded ∧ recorded.Excludes side x) ↔
      ∀ b e, k.Replaced side b e → Bound.Subsumed side b.value e) := by
  refine ⟨fun b => declares_of_bound, fun b hb => ?_, ?_, ?_⟩
  · exact (bound_of_declares hb).imp id fun ⟨e, he⟩ => ⟨e, he, bound_of_number he.number⟩
  · rintro h ⟨m, _⟩ e ⟨hlimit, rfl, hnumber⟩
    refine Bound.subsumed_iff.mpr fun x hx => ?_
    obtain ⟨recorded, hrecorded, hexcludes⟩ :=
      h _ (.inclusive hlimit (by simp [hnumber])) x hx
    rw [bound_of_number hnumber] at hrecorded
    cases hrecorded
    exact hexcludes
  · intro h b hb x hx
    rcases bound_of_declares hb with hrecorded | ⟨e, he⟩
    · exact ⟨b, hrecorded, hx⟩
    · obtain ⟨m, _⟩ := b
      obtain rfl := he.inclusive
      exact ⟨⟨e, true⟩, bound_of_number he.number, Bound.subsumed_iff.mp (h _ _ he) x hx⟩

/-- Below a least value of 10 an exclusive one of 5 lets 7 through. -/
theorem Constraints.stronger_bound_replaced : ¬∀ (k : Keywords) (side : Side) (b : Bound),
    k.Declares side b → ∀ x : Int, b.Excludes side x →
      ∃ recorded, (ofKeywords k).bound side = some recorded ∧ recorded.Excludes side x := by
  intro h
  let k : Keywords :=
    { minimum := some (.integer 10), exclusiveMinimum := some (.value (.integer 5)) }
  have hdeclares : k.Declares .lower ⟨.integer 10, false⟩ := .inclusive rfl (by decide)
  have hbelow : ((7 : Int) : ℚ) < ((10 : Int) : ℚ) := by norm_num
  obtain ⟨recorded, hrecorded, hexcludes⟩ := h k .lower _ hdeclares 7 hbelow
  cases hrecorded
  have habove : ((7 : Int) : ℚ) ≤ ((5 : Int) : ℚ) := hexcludes
  norm_num at habove

end SchemaBeans
