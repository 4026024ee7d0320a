import SchemaBeans.Fault
import SchemaBeans.Settings.Basic
/-!
Reading settings from JSON text. Every field may be missing and then keeps its default, but a field
that is not known, or given twice, is refused. A list gives the fields in their order.
-/

namespace SchemaBeans.Settings

/-- Reads one of several names, written as a string or as an object from the name to `null`. -/
def oneOf {α : Type} (choices : List (String × α)) : Decoder α := fun v =>
  let choose (name : String) : Except DecodingFault α :=
    match choices.lookup name with
    | some choice => .ok choice
    | none => .error (.unknownVariant name (choices.map (·.1)))
  match v with
  | .string name => choose name
  | .object ((name, value) :: others) => do
    let choice ← choose name
    if value.isNull = false then throw (.wrongType value .unit)
    if others.isEmpty then pure choice else throw .noValue
  | _ => .error .noValue

def style : Decoder AnnotationStyle :=
  oneOf [("jackson2", .jackson2), ("gson", .gson), ("moshi", .moshi), ("none", .none)]

def identification : Decoder Identification :=
  oneOf [("logicalName", .logicalName), ("className", .className)]

abbrev Field := Settings → Json → Except DecodingFault Settings

def field {α : Type} (decoder : Decoder α) (set : Settings → α → Settings) : Field :=
  fun s v => (decoder v).map (set s)

def fields : List (String × Field) := [
  ("targetPackage", field .string fun s v => { s with targetPackage := v }),
  ("propertyWordDelimiters",
    field (.list .character) fun s v => { s with propertyWordDelimiters := v }),
  ("generateBuilders", field .boolean fun s v => { s with generateBuilders := v }),
  ("usePrimitives", field .boolean fun s v => { s with usePrimitives := v }),
  ("useLongIntegers", field .boolean fun s v => { s with useLongIntegers := v }),
  ("useDoubleNumbers", field .boolean fun s v => { s with useDoubleNumbers := v }),
  ("useBigDecimals", field .boolean fun s v => { s with useBigDecimals := v }),
  ("includeHashcodeAndEquals", field .boolean fun s v => { s with includeHashcodeAndEquals := v }),
  ("includeToString", field .boolean fun s v => { s with includeToString := v }),
  ("includeJsr303Annotations", field .boolean fun s v => { s with includeJsr303Annotations := v }),
  ("useJakartaValidation", field .boolean fun s v => { s with useJakartaValidation := v }),
  ("includeDocumentation", field .boolean fun s v => { s with includeDocumentation := v }),
  ("includeTypeInfo", field .boolean fun s v => { s with includeTypeInfo := v }),
  ("annotationStyle", field style fun s v => { s with annotationStyle := v }),
  ("includeAdditionalProperties",
    field .boolean fun s v => { s with includeAdditionalProperties := v }),
  ("initializeCollections", field .boolean fun s v => { s with initializeCollections := v }),
  ("useTitleAsClassName", field .boolean fun s v => { s with useTitleAsClassName := v }),
  ("classNamePrefix", field .string fun s v => { s with classNamePrefix := v }),
  ("classNameSuffix", field .string fun s v => { s with classNameSuffix := v }),
  ("defaultDiscriminatorId", field identification fun s v =>
    { s with defaultDiscriminatorId := v })]

/-- Reads members in order; `seen` holds the fields that were given already. -/
def ofMembers (s : Settings) (seen : List String) : Json.Members → Except DecodingFault Settings
  | [] => .ok s
  | (name, value) :: rest =>
    match fields.lookup name with
    | none => .error (.unknownField name (fields.map (·.1)))
    | some read =>
      if seen.contains name then .error (.duplicateField name)
      else
        match read s value with
        | .ok s => ofMembers s (name :: seen) rest
        | .error fault => .error fault

def ofItems (s : Settings) : List (String × Field) → List Json → Except DecodingFault Settings
  | _, [] => .ok s
  | [], _ :: _ => .error .itemsLeft
  | (_, read) :: others, value :: rest =>
    match read s value with
    | .ok s => ofItems s others rest
    | .error fault => .error fault

def ofJson : Decoder Settings
  | .object members => ofMembers {} [] members
  | .array items => ofItems {} fields items
  | other => .error (.wrongType other (.record "GenerationSettings" none))

def ofText (text : String) : Except Fault Settings :=
  match Json.ofTextRaw? text with
  | .error cause => .error (.settings (.malformed cause))
  | .ok v =>
    match ofJson v with
    | .ok s => .ok s
    | .error cause => .error (.settings (.invalid cause))

def ofFile (files : FileSystem) (path : String) : Except Fault Settings :=
  match files.read path with
  | .error cause => .error (.settings (.unreadable path cause))
  | .ok text => ofText text

end SchemaBeans.Settings
