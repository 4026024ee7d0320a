import SchemaBeans.Binary64.Basic
/-!
Decimal text of doubles. Writing takes the fewest digits that read back as the same double and, of
those, the nearest to it. Reading rounds the exact decimal value once.
-/

namespace SchemaBeans.Binary64

def tenUp (n : Int) : Nat := Nat.pow 10 n.toNat
def tenDown (n : Int) : Nat := Nat.pow 10 (-n).toNat

structure Decimal where
  digits : Nat
  exponent : Int
  deriving DecidableEq, Repr

/-- The reals that round to a double, as multiples of a quarter of its unit: the double itself is at
`4 · significand`, and the ends of the interval belong to it when its significand is even. -/
structure Interval where
  low : Nat
  value : Nat
  high : Nat
  closed : Bool
  num : Nat
  den : Nat
  deriving DecidableEq, Repr

def interval (m : Nat) (e : Int) : Interval where
  low := 4 * m - (if m = leadingBit ∧ minExponent < e then 1 else 2)
  value := 4 * m
  high := 4 * m + 2
  closed := m % 2 == 0
  num := scaleUp (e - 2)
  den := scaleDown (e - 2)

def Interval.step (i : Interval) (p : Int) : Nat × Nat :=
  (i.num * tenDown p, i.den * tenUp p)

def Interval.holds (i : Interval) (p : Int) (d : Nat) : Bool :=
  let (num, den) := i.step p
  if i.closed then i.low * num ≤ d * den && d * den ≤ i.high * num
  else i.low * num < d * den && d * den < i.high * num

def Interval.onGrid (i : Interval) (p : Int) : Option Nat :=
  let (num, den) := i.step p
  let below := i.value * num / den
  let above := below + 1
  let nearer := roundHalfEven (i.value * num) den
  if i.holds p nearer then some nearer
  else if i.holds p below then some below
  else if i.holds p above then some above
  else none

def Interval.shortest (i : Interval) : Nat → Int → Decimal
  | 0, p => ⟨0, p⟩
  | fuel + 1, p =>
    match i.onGrid p with
    | some d => if d = 0 then i.shortest fuel (p - 1) else ⟨d, p⟩
    | none => i.shortest fuel (p - 1)

def decimalBound (m : Nat) (e : Int) : Int := ((m.log2 : Int) + e + 1) * 30103 / 100000 + 2

def shortest (m : Nat) (e : Int) : Decimal := (interval m e).shortest 24 (decimalBound m e)

structure Layout where
  least : Int
  most : Int
  whole : String
  deriving DecidableEq, Repr

/-- The text of a positive decimal. The exponent of scientific notation always carries a sign and
its mantissa has a point only if it has several digits. -/
def Layout.positive (layout : Layout) (d : Decimal) : String :=
  let digits := (toString d.digits).toList
  let point : Int := digits.length + d.exponent
  let lead := point - 1
  if layout.least ≤ lead ∧ lead ≤ layout.most then
    if 0 ≤ d.exponent then
      String.ofList (digits ++ List.replicate d.exponent.toNat '0') ++ layout.whole
    else if 0 < point then
      String.ofList (digits.take point.toNat ++ '.' :: digits.drop point.toNat)
    else
      String.ofList ('0' :: '.' :: List.replicate (-point).toNat '0' ++ digits)
  else
    let mantissa := match digits with
      | first :: second :: rest => first :: '.' :: second :: rest
      | short => short
    let sign := if lead < 0 then "-" else "+"
    String.ofList mantissa ++ "e" ++ sign ++ toString lead.natAbs

def Layout.text (layout : Layout) : Binary64 → String
  | .finite s m e =>
    let body := if m = 0 then "0" ++ layout.whole else layout.positive (shortest m e)
    if s then "-" ++ body else body
  | .infinite s => if s then "-inf" else "inf"
  | .nan => "NaN"

def ofDecimal (negative : Bool) (d : Decimal) : Binary64 :=
  let size : Int := (toString d.digits).length + d.exponent
  if d.digits = 0 ∨ size < -330 then zero negative
  else if 310 < size then .infinite negative
  else nearest negative (d.digits * tenUp d.exponent) (tenDown d.exponent)

def digitsValue (digits : List Char) : Nat :=
  digits.foldl (fun n c => n * 10 + (c.toNat - '0'.toNat)) 0

def signed : List Char → Bool × List Char
  | '-' :: rest => (true, rest)
  | '+' :: rest => (false, rest)
  | rest => (false, rest)

def exponentPart : List Char → Option Int
  | [] => some 0
  | mark :: rest =>
    if mark = 'e' ∨ mark = 'E' then
      let (negative, digits) := signed rest
      if digits.isEmpty || !digits.all Char.isDigit then none
      else some (if negative then -(digitsValue digits : Int) else digitsValue digits)
    else none

/-- Reads a whole text as a decimal number, an infinity or a NaN. The words are taken in either
case, a sign may stand first, and digits may be missing on one side of the point. -/
def ofText? (text : List Char) : Option Binary64 :=
  let (negative, body) := signed text
  let word := body.map Char.toLower
  if word = "inf".toList ∨ word = "infinity".toList then some (.infinite negative)
  else if word = "nan".toList then some .nan
  else
    let whole := body.takeWhile Char.isDigit
    let (fraction, rest) := match body.dropWhile Char.isDigit with
      | '.' :: after => (after.takeWhile Char.isDigit, after.dropWhile Char.isDigit)
      | other => ([], other)
    if whole.isEmpty && fraction.isEmpty then none
    else
      (exponentPart rest).map fun exponent =>
        ofDecimal negative ⟨digitsValue (whole ++ fraction), exponent - fraction.length⟩

end SchemaBeans.Binary64
