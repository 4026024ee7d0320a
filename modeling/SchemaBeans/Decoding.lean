import SchemaBeans.Json.Printer
import SchemaBeans.Text.Quoted
/-!
Typed readings of JSON values. A reading either succeeds or says which value was found where another
kind was expected.
-/

namespace SchemaBeans

inductive Expected where
  | string
  | character
  | boolean
  | sequence
  | map
  | number
  | unit
  | record (name : String) (size : Option Nat)
  deriving DecidableEq, Repr

def Expected.text : Expected → String
  | string => "a string"
  | character => "a character"
  | boolean => "a boolean"
  | sequence => "a sequence"
  | map => "a map"
  | number => "a JSON number"
  | unit => "unit"
  | record name none => "struct " ++ name
  | record name (some n) => "struct " ++ name ++ " with " ++ toString n ++ " elements"

/-- Why a value cannot be read. -/
inductive DecodingFault where
  | wrongType (found : Json) (expected : Expected)
  | wrongString (found : String) (expected : Expected)
  | noAlternative (name : String)
  | notCount (found : JsonNumber)
  | wrongLength (found : Nat) (expected : Expected)
  | tooManyItems (found : Nat)
  | unknownField (found : String) (known : List String)
  | unknownVariant (found : String) (known : List String)
  | duplicateField (name : String)
  | noValue
  | itemsLeft
  deriving Repr

namespace DecodingFault

def describe : Json → String
  | .null => "null"
  | .bool b => "boolean `" ++ (if b then "true" else "false") ++ "`"
  | .number (.integer n) => "integer `" ++ toString n ++ "`"
  | .number (.float x) => "floating point `" ++ JsonNumber.layout.text x ++ "`"
  | .string s => "string " ++ Text.quoted s
  | .array _ => "sequence"
  | .object _ => "map"

/-- The accepted names: two are joined by `or`, more are listed. -/
def oneOf (known : List String) : String :=
  let marked := known.map fun name => "`" ++ name ++ "`"
  match marked with
  | [] => "there are no fields"
  | [only] => "expected " ++ only
  | [a, b] => "expected " ++ a ++ " or " ++ b
  | many => "expected one of " ++ ", ".intercalate many

def message : DecodingFault → String
  | wrongType found expected => "invalid type: " ++ describe found ++ ", expected " ++ expected.text
  | wrongString found expected =>
    "invalid value: string " ++ Text.quoted found ++ ", expected " ++ expected.text
  | noAlternative name => "data did not match any variant of untagged enum " ++ name
  | notCount found => "expected a non-negative integer, found " ++ found.text
  | wrongLength found expected =>
    "invalid length " ++ toString found ++ ", expected " ++ expected.text
  | tooManyItems found =>
    "invalid length " ++ toString found ++ ", expected fewer elements in array"
  | unknownField found known => "unknown field `" ++ found ++ "`, " ++ oneOf known
  | unknownVariant found known => "unknown variant `" ++ found ++ "`, " ++ oneOf known
  | duplicateField name => "duplicate field `" ++ name ++ "`"
  | noValue => "expected value"
  | itemsLeft => "trailing characters"

end DecodingFault

abbrev Decoder (α : Type) := Json → Except DecodingFault α

namespace Decoder

def string : Decoder String
  | .string s => .ok s
  | other => .error (.wrongType other .string)

def boolean : Decoder Bool
  | .bool b => .ok b
  | other => .error (.wrongType other .boolean)

def number : Decoder JsonNumber
  | .number n => .ok n
  | other => .error (.wrongType other .number)

def character : Decoder Char
  | .string s =>
    match s.toList with
    | [c] => .ok c
    | _ => .error (.wrongString s .character)
  | other => .error (.wrongType other .character)

def any : Decoder Json := .ok

def list {α : Type} (item : Decoder α) : Decoder (List α)
  | .array items => items.mapM item
  | other => .error (.wrongType other .sequence)

def members : Decoder Json.Members
  | .object members => .ok members
  | other => .error (.wrongType other .map)

def optional {α : Type} (decoder : Decoder α) : Decoder (Option α)
  | .null => .ok none
  | other => (decoder other).map some

def count : Decoder Nat := fun v => do
  let n ← number v
  match n.toCount? with
  | some count => pure count
  | none => throw (.notCount n)

/-- The first alternative that reads the value; the fault names the whole group only. -/
def firstOf {α : Type} (name : String) (alternatives : List (Decoder α)) : Decoder α := fun v =>
  match alternatives.findSome? fun decoder => (decoder v).toOption with
  | some a => .ok a
  | none => .error (.noAlternative name)

end Decoder

end SchemaBeans
