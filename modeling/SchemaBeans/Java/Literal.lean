import SchemaBeans.Json.Printer
import SchemaBeans.TypeGraph
/-!
Java literals. A JSON value is written as a literal of a field's type only if it fits that type.
-/

namespace SchemaBeans.Java

def escapedChar (c : Char) : List Char :=
  if c = '\\' then ['\\', '\\']
  else if c = '"' then ['\\', '"']
  else if c = '\n' then ['\\', 'n']
  else if c = '\r' then ['\\', 'r']
  else if c = '\t' then ['\\', 't']
  else [c]

def escape (text : String) : String := String.ofList (text.toList.flatMap escapedChar)

def stringLiteral (text : String) : String := "\"" ++ escape text ++ "\""

def scalarName : Scalar → Bool → String
  | .integer, true => "int"
  | .integer, false => "Integer"
  | .long, true => "long"
  | .long, false => "Long"
  | .float, true => "float"
  | .float, false => "Float"
  | .double, true => "double"
  | .double, false => "Double"
  | .boolean, true => "boolean"
  | .boolean, false => "Boolean"

/-- The literal of an enum constant, for an enum whose literals have the given type. -/
def enumLiteral (type : TypeRef) (value : Json) : String :=
  match type, value with
  | .scalar .long _, .number n => n.text ++ "L"
  | .scalar .double _, .number n => n.text ++ "D"
  | .scalar _ _, .number n => n.text
  | .scalar _ _, .bool b => (Json.bool b).text
  | _, other => stringLiteral other.plainText

def fitsEnum (type : TypeRef) (value : Json) : Bool :=
  match type, value with
  | .string, .string _ => true
  | .scalar _ _, .number _ => true
  | .scalar _ _, .bool _ => true
  | _, _ => false

def scalarLiteral? (scalar : Scalar) (value : Json) : Option String :=
  match scalar, value with
  | .boolean, .bool b => some (Json.bool b).text
  | .integer, .number n =>
    (n.toSigned?.filter fun v => -2147483648 ≤ v ∧ v ≤ 2147483647).map toString
  | .long, .number n => n.toSigned?.map fun v => toString v ++ "L"
  | .double, .number n => some (n.text ++ "D")
  | .float, .number n => some (n.text ++ "F")
  | _, _ => none

def signedWord? (text : String) : Option Int :=
  let (negative, digits) := Binary64.signed text.toList
  if digits.isEmpty || !digits.all Char.isDigit then none
  else
    let size : Int := Binary64.digitsValue digits
    let value := if negative then -size else size
    if JsonNumber.signedMin ≤ value ∧ value ≤ JsonNumber.signedMax then some value else none

/-- How a value of a library class is made from text; `simple` is the name the class goes by. -/
def libraryLiteral? (name simple text : String) : Option String :=
  match name with
  | "java.util.Date" => (signedWord? text).map fun v => "new " ++ simple ++ "(" ++
      toString v ++ "L)"
  | "java.math.BigDecimal" | "java.math.BigInteger" =>
    some ("new " ++ simple ++ "(" ++ stringLiteral text ++ ")")
  | "java.net.URI" => some (simple ++ ".create(" ++ stringLiteral text ++ ")")
  | "java.util.UUID" => some (simple ++ ".fromString(" ++ stringLiteral text ++ ")")
  | _ => none

end SchemaBeans.Java
