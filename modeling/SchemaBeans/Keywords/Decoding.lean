import SchemaBeans.Decoding
import SchemaBeans.Keywords.Basic
/-!
Reading the keywords of a schema. Members are read in document order and the first one that cannot
be read decides; unknown members are passed over, and `null` means absence for every keyword except
`default`.
-/

namespace SchemaBeans.Keywords

def typeKeyword : Decoder TypeKeyword :=
  .firstOf "TypeKeyword"
    [fun v => .single <$> Decoder.string v, fun v => .union <$> Decoder.list Decoder.string v]

def requiredKeyword : Decoder RequiredKeyword :=
  .firstOf "RequiredKeyword"
    [fun v => .keys <$> Decoder.list Decoder.string v, fun v => .flag <$> Decoder.boolean v]

def exclusiveBound : Decoder ExclusiveBound :=
  .firstOf "ExclusiveBound"
    [fun v => .flag <$> Decoder.boolean v, fun v => .value <$> Decoder.number v]

abbrev Field := Keywords → Json → Except DecodingFault Keywords

def field {α : Type} (decoder : Decoder α) (set : Keywords → Option α → Keywords) : Field :=
  fun k v => (Decoder.optional decoder v).map (set k)

/-- A keyword with its field, and whether a list of values may end before it. -/
structure Entry where
  name : String
  read : Field
  mayLack : Bool := false

def entries : List Entry := [
  { name := "$ref", read := field .string fun k v => { k with reference := v } },
  { name := "title", read := field .string fun k v => { k with title := v } },
  { name := "description", read := field .string fun k v => { k with description := v } },
  { name := "type", read := field typeKeyword fun k v => { k with type := v } },
  { name := "format", read := field .string fun k v => { k with format := v } },
  { name := "default", read := fun k v => .ok { k with default := some v }, mayLack := true },
  { name := "properties", read := field .members fun k v => { k with properties := v } },
  { name := "required", read := field requiredKeyword fun k v => { k with required := v } },
  { name := "additionalProperties",
    read := field .any fun k v => { k with additionalProperties := v } },
  { name := "items", read := field .any fun k v => { k with items := v } },
  { name := "uniqueItems", read := field .boolean fun k v => { k with uniqueItems := v } },
  { name := "enum", read := field (.list .any) fun k v => { k with enumeration := v } },
  { name := "allOf", read := field (.list .any) fun k v => { k with allOf := v } },
  { name := "oneOf", read := field (.list .any) fun k v => { k with oneOf := v } },
  { name := "anyOf", read := field (.list .any) fun k v => { k with anyOf := v } },
  { name := "minimum", read := field .number fun k v => { k with minimum := v } },
  { name := "maximum", read := field .number fun k v => { k with maximum := v } },
  { name := "exclusiveMinimum",
    read := field exclusiveBound fun k v => { k with exclusiveMinimum := v } },
  { name := "exclusiveMaximum",
    read := field exclusiveBound fun k v => { k with exclusiveMaximum := v } },
  { name := "minItems", read := field .count fun k v => { k with minItems := v }, mayLack := true },
  { name := "maxItems", read := field .count fun k v => { k with maxItems := v }, mayLack := true },
  { name := "minLength", read := field .count fun k v => { k with minLength := v },
    mayLack := true },
  { name := "maxLength", read := field .count fun k v => { k with maxLength := v },
    mayLack := true },
  { name := "pattern", read := field .string fun k v => { k with pattern := v } },
  { name := "extends", read := field .any fun k v => { k with superclass := v } },
  { name := "javaType", read := field .string fun k v => { k with javaType := v } },
  { name := "existingJavaType", read := field .string fun k v => { k with existingJavaType := v } },
  { name := "javaName", read := field .string fun k v => { k with javaName := v } },
  { name := "javaEnumNames",
    read := field (.list .string) fun k v => { k with javaEnumNames := v } },
  { name := "discriminator", read := field .any fun k v => { k with discriminator := v } },
  { name := "deserializationClassProperty",
    read := field .any fun k v => { k with deserializationClassProperty := v } }]

def ofMembers (k : Keywords) : Json.Members → Except DecodingFault Keywords
  | [] => .ok k
  | (name, value) :: rest =>
    match entries.find? (·.name == name) with
    | none => ofMembers k rest
    | some entry =>
      match entry.read k value with
      | .ok k => ofMembers k rest
      | .error fault => .error fault

def record (size : Option Nat) : Expected := .record "Keywords" size

/-- Reads a list of values in the order of the keywords. `done` counts the keywords passed. -/
def ofItems (k : Keywords) (done : Nat) : List Entry → List Json → Except DecodingFault Keywords
  | [], [] => .ok k
  | [], rest => .error (.tooManyItems (done + rest.length))
  | entry :: others, [] =>
    if entry.mayLack then ofItems k (done + 1) others []
    else .error (.wrongLength done (record (some entries.length)))
  | entry :: others, value :: rest =>
    match entry.read k value with
    | .ok k => ofItems k (done + 1) others rest
    | .error fault => .error fault

def ofJson : Decoder Keywords
  | .object members => ofMembers {} members
  | .array items => ofItems {} 0 entries items
  | other => .error (.wrongType other (record none))

end SchemaBeans.Keywords
