import SchemaBeans.Check
import SchemaBeans.Proofs.Json.Layers
import SchemaBeans.Proofs.Keywords.Constraints

/-! # Bounds of merged schemas

Of all the bounds that the parts of a merged schema state, one is left on each side: that of the
last part that states one under the keyword, where a number under the exclusive keyword goes
before. -/
namespace SchemaBeans

open Check (Side)
open Json (Assembled Distinct Inline SameScalar lastUnder)

def Json.exclusive? : Json → Option ExclusiveBound
  | .bool flag => some (.flag flag)
  | .number n => some (.value n)
  | _ => none

namespace Keywords

variable {name : String} {k : Keywords} {members : Json.Members} {last : Option Json}

theorem Reads.number {part : Keywords → Option JsonNumber} (h : Reads name Decoder.number part)
    (hdistinct : Distinct members) (hk : ofMembers {} members = .ok k)
    (hsame : SameScalar (members.lookup name) last) : part k = last.bind Json.number? := by
  rcases h.cases hdistinct hk with ⟨hmissing, hnone⟩ | ⟨v, hv, hread⟩
  · rw [hnone, hsame.missing.mp hmissing]
    rfl
  · have hlast : v.isScalar = true → last = some v := fun hs => (hsame.scalar v hs).mp hv
    cases v with
    | number n =>
      rw [hlast rfl, ← Except.ok.inj hread]
      rfl
    | null =>
      rw [hlast rfl, ← Except.ok.inj hread]
      rfl
    | _ => cases hread

theorem Reads.exclusive {part : Keywords → Option ExclusiveBound}
    (h : Reads name exclusiveBound part) (hdistinct : Distinct members)
    (hk : ofMembers {} members = .ok k) (hsame : SameScalar (members.lookup name) last) :
    part k = last.bind Json.exclusive? := by
  rcases h.cases hdistinct hk with ⟨hmissing, hnone⟩ | ⟨v, hv, hread⟩
  · rw [hnone, hsame.missing.mp hmissing]
    rfl
  · have hlast : v.isScalar = true → last = some v := fun hs => (hsame.scalar v hs).mp hv
    cases v with
    | number n =>
      rw [hlast rfl, ← Except.ok.inj hread]
      rfl
    | bool flag =>
      rw [hlast rfl, ← Except.ok.inj hread]
      rfl
    | null =>
      rw [hlast rfl, ← Except.ok.inj hread]
      rfl
    | _ => cases hread

end Keywords

namespace Check.Side

def inclusive : Side → String
  | lower => "minimum"
  | upper => "maximum"

/-- The keyword of the exclusive bound. -/
def exclusive : Side → String
  | lower => "exclusiveMinimum"
  | upper => "exclusiveMaximum"

end Check.Side

namespace Constraints

def bound (c : Constraints) : Side → Option Bound
  | .lower => c.minimum
  | .upper => c.maximum

end Constraints

/-- The bound of one side that is left of those that the schemas state one after the other. -/
def Bound.left (side : Side) (all : List Json) : Option Bound :=
  Bound.ofKeywords ((lastUnder side.inclusive all).bind Json.number?)
    ((lastUnder side.exclusive all).bind Json.exclusive?)

theorem Constraints.bound_ofKeywords {v : Json} {all : List Json} {place : Location} {k : Keywords}
    (h : Assembled Inline v all) (hk : Store.keywordsOf place v = .ok k) (side : Side) :
    (Constraints.ofKeywords k).bound side = Bound.left side all := by
  obtain ⟨members, rfl, hdistinct⟩ := (h.inline fun _ h => h).once
  have hread := ofMembers_of_keywordsOf hk
  obtain ⟨-, -, -, -, hminimum, hmaximum, hexclusiveMinimum, hexclusiveMaximum⟩ :=
    Keywords.reads_keywords
  cases side with
  | lower =>
    have hlimit := hminimum.number hdistinct hread (h.sameScalar (by decide))
    have hexclusive := hexclusiveMinimum.exclusive hdistinct hread (h.sameScalar (by decide))
    exact congrArg₂ Bound.ofKeywords hlimit hexclusive
  | upper =>
    have hlimit := hmaximum.number hdistinct hread (h.sameScalar (by decide))
    have hexclusive := hexclusiveMaximum.exclusive hdistinct hread (h.sameScalar (by decide))
    exact congrArg₂ Bound.ofKeywords hlimit hexclusive

end SchemaBeans
