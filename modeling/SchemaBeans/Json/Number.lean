import SchemaBeans.Binary64.Decimal
/-!
Numbers of JSON documents. A literal without point and exponent that fits a signed or unsigned word
of 64 bits is an integer; every other number is a double. An integer never equals a double.
-/

namespace SchemaBeans

inductive JsonNumber where
  | integer (value : Int)
  | float (value : Binary64)
  deriving DecidableEq, Repr, Inhabited

namespace JsonNumber

def wordMax : Nat := 0xFFFFFFFFFFFFFFFF
def signedMin : Int := -0x8000000000000000
def signedMax : Int := 0x7FFFFFFFFFFFFFFF

def layout : Binary64.Layout := ⟨-5, 15, ".0"⟩

def text : JsonNumber → String
  | integer n => toString n
  | float x => layout.text x

def same : JsonNumber → JsonNumber → Bool
  | integer a, integer b => a == b
  | float a, float b => a.same b
  | _, _ => false

def toBinary64 : JsonNumber → Binary64
  | integer n => .ofInt n
  | float x => x

def toSigned? : JsonNumber → Option Int
  | integer n => if signedMin ≤ n ∧ n ≤ signedMax then some n else none
  | float _ => none

def toCount? : JsonNumber → Option Nat
  | integer n => if 0 ≤ n then some n.toNat else none
  | float x => x.toNat?.filter (· ≤ Binary64.significandEnd)

/-- Digits that still fit a word, and the power of ten that stands for the digits left out. -/
structure Gathered where
  significand : Nat
  exponent : Int
  deriving DecidableEq, Repr

def digitValue (c : Char) : Nat := c.toNat - '0'.toNat

def gatherWhole : Nat → List Char → Gathered
  | n, [] => ⟨n, 0⟩
  | n, c :: rest =>
    let next := n * 10 + digitValue c
    if next ≤ wordMax then gatherWhole next rest else ⟨n, (c :: rest).length⟩

def gatherFraction : Gathered → List Char → Gathered
  | g, [] => g
  | g, c :: rest =>
    let next := g.significand * 10 + digitValue c
    if next ≤ wordMax then gatherFraction ⟨next, g.exponent - 1⟩ rest else g

def powerOfTen (n : Int) : Binary64 := .ofNat (Binary64.tenUp n)

def settle : Nat → Binary64 → Int → Binary64 × Int
  | 0, x, e => (x, e)
  | fuel + 1, x, e =>
    if e < -308 ∧ x.isZero = false then settle fuel (x.div (powerOfTen 308)) (e + 308) else (x, e)

/-- The double of a significand and a power of ten: the rounded significand, scaled by a rounded
power of ten. None beyond the range of doubles. -/
def scaled (g : Gathered) : Option Binary64 :=
  let (x, e) := settle 3 (.ofNat g.significand) g.exponent
  if x.isZero then some x
  else if e < -308 then some (.zero false)
  else if e < 0 then some (x.div (powerOfTen (-e)))
  else if 308 < e then none
  else
    let y := x.mul (powerOfTen e)
    if y.isFinite then some y else none

/-- A number from its parts: sign, digits before the point, digits after it and exponent, the last
two none if not written. -/
def ofParts (negative : Bool) (whole : List Char) (fraction : Option (List Char))
    (exponent : Option Int) : Option JsonNumber :=
  let gathered := gatherWhole 0 whole
  let plain := fraction.isNone && exponent.isNone && gathered.exponent == 0
  let n := gathered.significand
  if plain ∧ negative = false then some (.integer n)
  else if plain ∧ 0 < n ∧ (n : Int) ≤ -signedMin then some (.integer (-n))
  else
    let g := gatherFraction gathered (fraction.getD [])
    (scaled ⟨g.significand, g.exponent + exponent.getD 0⟩).map fun x =>
      .float (if negative then x.neg else x)

end JsonNumber

end SchemaBeans
