import SchemaBeans.Text.Utf8
/-!
Percent escapes. A percent sign and the two characters after it stand for one octet if the two spell
a number in base sixteen, where the first may be a plus sign. Everything else stands for itself, and
the octets are read as text afterwards.
-/

namespace SchemaBeans.Percent

def digit? (c : Char) : Option Nat :=
  if '0' ≤ c ∧ c ≤ '9' then some (c.toNat - 48)
  else if 'a' ≤ c ∧ c ≤ 'f' then some (c.toNat - 87)
  else if 'A' ≤ c ∧ c ≤ 'F' then some (c.toNat - 55)
  else none

def octet? (a b : Char) : Option Nat :=
  if a = '+' then digit? b
  else do
    let high ← digit? a
    let low ← digit? b
    pure (16 * high + low)

/-- The octets that a text stands for. -/
def octets : List Char → List Nat
  | [] => []
  | '%' :: a :: b :: rest =>
    match octet? a b with
    | some octet => octet :: octets rest
    | none => Text.octets '%' ++ octets (a :: b :: rest)
  | c :: rest => Text.octets c ++ octets rest

def decode (text : String) : String := String.ofList (Text.decode (octets text.toList))

end SchemaBeans.Percent
