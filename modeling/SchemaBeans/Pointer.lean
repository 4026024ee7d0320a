import SchemaBeans.Json.Value
import SchemaBeans.Text.Split
/-!
JSON pointers: segments that each follow a slash, with `~` written as `~0` and `/` as `~1`. A
pointer leads from a value to a part of it, one member name or array index at a time.
-/

namespace SchemaBeans

namespace Pointer

def escapedChar (c : Char) : List Char :=
  if c = '~' then ['~', '0'] else if c = '/' then ['~', '1'] else [c]

def escape (segment : List Char) : List Char := segment.flatMap escapedChar

def unescape (segment : List Char) : List Char :=
  Text.replacePair '~' '0' ['~'] (Text.replacePair '~' '1' ['/'] segment)

def push (pointer segment : String) : String :=
  String.ofList (pointer.toList ++ '/' :: escape segment.toList)

/-- The segments of a pointer, which is empty or starts with a slash. -/
def segments? (pointer : String) : Option (List String) :=
  match pointer.toList with
  | [] => some []
  | '/' :: rest => some ((Text.pieces '/' rest).map fun s => String.ofList (unescape s))
  | _ => none

/-- Reads an array index: decimal digits, perhaps with a plus sign before them, below 2^64. -/
def index? (segment : String) : Option Nat :=
  let digits := match segment.toList with
    | '+' :: rest => rest
    | all => all
  if digits.isEmpty || !digits.all Char.isDigit then none
  else some (Binary64.digitsValue digits) |>.filter (· ≤ JsonNumber.wordMax)

end Pointer

def Json.step? (v : Json) (segment : String) : Option Json :=
  match v with
  | .object members => members.lookup segment
  | .array items => (Pointer.index? segment).bind fun i => items[i]?
  | _ => none

def Json.descend? (v : Json) (segments : List String) : Option Json := segments.foldlM Json.step? v

def Json.lookup? (v : Json) (pointer : String) : Option Json :=
  (Pointer.segments? pointer).bind v.descend?

end SchemaBeans
