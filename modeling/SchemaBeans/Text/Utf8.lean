/-!
Text as octets. A character is written as one to four octets; an octet sequence reads back as text,
with one replacement character for each longest start of a character that is broken off.
-/

namespace SchemaBeans.Text

def octets (c : Char) : List Nat :=
  let n := c.toNat
  if n < 0x80 then [n]
  else if n < 0x800 then [0xC0 + n / 0x40, 0x80 + n % 0x40]
  else if n < 0x10000 then [0xE0 + n / 0x1000, 0x80 + n / 0x40 % 0x40, 0x80 + n % 0x40]
  else [0xF0 + n / 0x40000, 0x80 + n / 0x1000 % 0x40, 0x80 + n / 0x40 % 0x40, 0x80 + n % 0x40]

def encode (text : List Char) : List Nat := text.flatMap octets

def opening (b : Nat) : Option (Nat × Nat × Nat × Nat) :=
  if b < 0x80 then some (0, 0x80, 0xBF, b)
  else if b < 0xC2 then none
  else if b < 0xE0 then some (1, 0x80, 0xBF, b - 0xC0)
  else if b = 0xE0 then some (2, 0xA0, 0xBF, 0)
  else if b = 0xED then some (2, 0x80, 0x9F, b - 0xE0)
  else if b < 0xF0 then some (2, 0x80, 0xBF, b - 0xE0)
  else if b = 0xF0 then some (3, 0x90, 0xBF, 0)
  else if b < 0xF4 then some (3, 0x80, 0xBF, b - 0xF0)
  else if b = 0xF4 then some (3, 0x80, 0x8F, b - 0xF0)
  else none

def replacement : Char := Char.ofNat 0xFFFD

/-- A character of which `owed` octets are still to come, the next one between `low` and `high`.
With nothing owed the decoder stands between characters. -/
structure Begun where
  owed : Nat
  low : Nat
  high : Nat
  bits : Nat
  deriving DecidableEq, Repr

def between : Begun := ⟨0, 0x80, 0xBF, 0⟩

def start (b : Nat) : List Char × Begun :=
  match opening b with
  | none => ([replacement], between)
  | some (0, _, _, bits) => ([Char.ofNat bits], between)
  | some (owed, low, high, bits) => ([], ⟨owed, low, high, bits⟩)

/-- Reads one octet: the characters it completes, and where the decoder stands afterwards. An octet
that cannot go on with the character begun closes it as broken off and starts anew. -/
def feed (p : Begun) (b : Nat) : List Char × Begun :=
  if p.owed = 0 then start b
  else if p.low ≤ b ∧ b ≤ p.high then
    let bits := p.bits * 0x40 + (b - 0x80)
    if p.owed = 1 then ([Char.ofNat bits], between)
    else ([], ⟨p.owed - 1, 0x80, 0xBF, bits⟩)
  else
    let (chars, next) := start b
    (replacement :: chars, next)

def decodeFrom (p : Begun) : List Nat → List Char
  | [] => if p.owed = 0 then [] else [replacement]
  | b :: rest =>
    let (chars, next) := feed p b
    chars ++ decodeFrom next rest

def decode (bytes : List Nat) : List Char := decodeFrom between bytes

end SchemaBeans.Text
