/-!
Double precision numbers as exact values: a sign, a significand below 2^53 and a power of two, so
that rounding, comparison and text need integer arithmetic only. Rounding goes to the nearest double
and, from the middle between two, to the one with the even significand.
-/

namespace SchemaBeans

/-- A finite double is `significand · 2^exponent`. The significand has 53 bits, or fewer at the
smallest exponent. -/
inductive Binary64 where
  | finite (negative : Bool) (significand : Nat) (exponent : Int)
  | infinite (negative : Bool)
  | nan
  deriving DecidableEq, Repr, Inhabited

namespace Binary64

def minExponent : Int := -1074
def maxExponent : Int := 971

def leadingBit : Nat := 0x10000000000000

def significandEnd : Nat := 2 * leadingBit

def zero (negative : Bool) : Binary64 := .finite negative 0 minExponent

def scaleUp (n : Int) : Nat := 1 <<< n.toNat
def scaleDown (n : Int) : Nat := 1 <<< (-n).toNat

/-- Rounds `num / den` to an integer, a half to the even neighbour. -/
def roundHalfEven (num den : Nat) : Nat :=
  let q := num / den
  let r := num % den
  if den < 2 * r ∨ (den = 2 * r ∧ q % 2 = 1) then q + 1 else q

def inUnits (num den : Nat) (e : Int) : Nat := roundHalfEven (num * scaleDown e) (den * scaleUp e)

/-- The exponent at which `num / den` has a significand of 53 bits, or the smallest exponent. -/
def exponentFor (num den : Nat) : Int :=
  let low := max ((num.log2 : Int) - den.log2 - 53) minExponent
  if significandEnd ≤ num * scaleDown low / (den * scaleUp low) then low + 1 else low

def nearest (negative : Bool) (num den : Nat) : Binary64 :=
  if num = 0 then zero negative
  else
    let e := exponentFor num den
    let m := inUnits num den e
    let (m, e) := if m = significandEnd then (leadingBit, e + 1) else (m, e)
    if maxExponent < e then .infinite negative else .finite negative m e

def ofNat (n : Nat) : Binary64 := nearest false n 1

def ofInt (n : Int) : Binary64 := nearest (n < 0) n.natAbs 1

def neg : Binary64 → Binary64
  | .finite s m e => .finite (!s) m e
  | .infinite s => .infinite (!s)
  | .nan => .nan

def isZero : Binary64 → Bool
  | .finite _ m _ => m == 0
  | _ => false

def isFinite : Binary64 → Bool
  | .finite .. => true
  | _ => false

def mul : Binary64 → Binary64 → Binary64
  | .finite s m e, .finite t n f => nearest (s != t) (m * n * scaleUp (e + f)) (scaleDown (e + f))
  | _, _ => .nan

def div : Binary64 → Binary64 → Binary64
  | .finite s m e, .finite t n f =>
    if n = 0 then .nan
    else nearest (s != t) (m * scaleUp (e - f)) (n * scaleDown (e - f))
  | _, _ => .nan

/-- A finite double as an integer count of units `2^e`, for an `e` not above its own exponent. -/
def unitsAt (e : Int) (negative : Bool) (m : Nat) (own : Int) : Int :=
  let size := (m * scaleUp (own - e) : Nat)
  if negative then -(size : Int) else size

def compare? : Binary64 → Binary64 → Option Ordering
  | .nan, _ => none
  | _, .nan => none
  | .infinite s, .infinite t => some (compare (!s).toNat (!t).toNat)
  | .infinite s, .finite .. => some (if s then .lt else .gt)
  | .finite .., .infinite t => some (if t then .gt else .lt)
  | .finite s m e, .finite t n f =>
    let unit := min e f
    some (compare (unitsAt unit s m e) (unitsAt unit t n f))

def lt (a b : Binary64) : Bool := a.compare? b == some .lt

def le (a b : Binary64) : Bool := a.lt b || a.compare? b == some .eq

/-- Equality of numbers: both zeros are equal, a NaN equals nothing. -/
def same (a b : Binary64) : Bool := a.compare? b == some .eq

def toNat? : Binary64 → Option Nat
  | .finite s m e =>
    if m * scaleUp e % scaleDown e ≠ 0 then none
    else if s && m != 0 then none
    else some (m * scaleUp e / scaleDown e)
  | _ => none

end Binary64

end SchemaBeans
