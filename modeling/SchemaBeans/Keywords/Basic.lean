import SchemaBeans.Json.Value
/-!
The keywords of a schema that matter to the types generated for it. Subschemas stay plain JSON
values until someone asks for them.
-/

namespace SchemaBeans

inductive TypeKeyword where
  | single (name : String)
  | union (names : List String)
  deriving DecidableEq, Repr

def TypeKeyword.effective? : TypeKeyword → Option String
  | single name => some name
  | union names =>
    match names.filter (· ≠ "null") with
    | [only] => some only
    | _ => none

/-- The keys an object must have, or a property's own flag. -/
inductive RequiredKeyword where
  | keys (names : List String)
  | flag (value : Bool)
  deriving DecidableEq, Repr

/-- A flag on the inclusive bound, or a bound of its own. -/
inductive ExclusiveBound where
  | flag (value : Bool)
  | value (limit : JsonNumber)
  deriving DecidableEq, Repr

structure Keywords where
  reference : Option String := none
  title : Option String := none
  description : Option String := none
  type : Option TypeKeyword := none
  format : Option String := none
  default : Option Json := none
  properties : Option Json.Members := none
  required : Option RequiredKeyword := none
  additionalProperties : Option Json := none
  items : Option Json := none
  uniqueItems : Option Bool := none
  enumeration : Option (List Json) := none
  allOf : Option (List Json) := none
  oneOf : Option (List Json) := none
  anyOf : Option (List Json) := none
  minimum : Option JsonNumber := none
  maximum : Option JsonNumber := none
  exclusiveMinimum : Option ExclusiveBound := none
  exclusiveMaximum : Option ExclusiveBound := none
  minItems : Option Nat := none
  maxItems : Option Nat := none
  minLength : Option Nat := none
  maxLength : Option Nat := none
  pattern : Option String := none
  superclass : Option Json := none
  javaType : Option String := none
  existingJavaType : Option String := none
  javaName : Option String := none
  javaEnumNames : Option (List String) := none
  discriminator : Option Json := none
  deserializationClassProperty : Option Json := none
  deriving Repr, Inhabited

namespace Keywords

def requiredKeys (k : Keywords) : List String :=
  match k.required with
  | some (.keys names) => names
  | _ => []

def requiredFlag (k : Keywords) : Bool := k.required == some (.flag true)

def family (k : Keywords) : Option Json := k.discriminator <|> k.deserializationClassProperty

def effectiveType? (k : Keywords) : Option String := k.type.bind TypeKeyword.effective?

def hasProperties (k : Keywords) : Bool :=
  match k.properties with
  | some (_ :: _) => true
  | _ => false

end Keywords

inductive Primitive where
  | string
  | integer
  | number
  | boolean
  | null
  deriving DecidableEq, Repr

inductive Shape where
  | allOf
  | union
  | enumeration
  | object
  | array
  | primitive (type : Primitive)
  | any
  deriving DecidableEq, Repr, Inhabited

namespace Shape

def ofType? : String → Option Shape
  | "object" => some object
  | "array" => some array
  | "string" => some (primitive .string)
  | "integer" => some (primitive .integer)
  | "number" => some (primitive .number)
  | "boolean" => some (primitive .boolean)
  | "null" => some (primitive .null)
  | "any" => some any
  | _ => none

/-- Combinators decide first, then `enum`, then `type`, and without a type the keywords that only
one shape has. The error is an unknown type name. -/
def classify (k : Keywords) : Except String Shape :=
  if k.allOf.isSome then .ok allOf
  else if k.oneOf.isSome || k.anyOf.isSome then .ok union
  else if k.enumeration.isSome then .ok enumeration
  else
    match k.type with
    | some type =>
      match type.effective? with
      | none => .ok any
      | some name =>
        match ofType? name with
        | some shape => .ok shape
        | none => .error name
    | none =>
      if k.properties.isSome || k.additionalProperties.isSome || k.superclass.isSome then .ok object
      else if k.items.isSome then .ok array
      else .ok any

end Shape

end SchemaBeans
