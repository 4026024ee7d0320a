import SchemaBeans.Decoration
import SchemaBeans.Java.Literal
import SchemaBeans.Names
/-!
The parts of a source file below its declarations: names of types as they are written in it,
initializers, annotations and documentation. Writing a name may ask for an import.
-/

namespace SchemaBeans.Java

/-- What is rendered, and the package of the file it is rendered for. -/
structure Sheet where
  graph : TypeGraph
  decorations : Decorations
  settings : Settings
  package : String

abbrev Importing := StateM (List String)

def need (name : String) : Importing Unit := modify (name :: ·)

abbrev Lines := List String

def line (indent : Nat) (text : String) : String :=
  if text.isEmpty then "" else "".pushn ' ' (4 * indent) ++ text

def method (indent : Nat) (annotations : List String) (signature : String) (body : List String) :
    Lines :=
  "" :: annotations.map (line indent) ++ [line indent (signature ++ " \x7b")] ++
    body.map (line (indent + 1)) ++ [line indent "\x7d"]

/-- The simple name of a library class, imported unless it needs no import. A name with type
arguments is written as it is. -/
def libraryName (sheet : Sheet) (name : String) : Importing String :=
  if name.toList.contains '<' then pure name
  else
    match Text.cutLast '.' name.toList with
    | none => pure name
    | some (package, simple) => do
      let package := String.ofList package
      if package ≠ "java.lang" ∧ package ≠ sheet.package then need name
      pure (String.ofList simple)

/-- The name of a generated type within its package. Its outermost type is imported if that is in
another package. -/
def generatedName (sheet : Sheet) (id : TypeId) : Importing String := do
  let outer := sheet.graph.outermost id
  let package := (sheet.graph.get outer).package
  if !package.isEmpty && package != sheet.package then need (sheet.graph.qualifiedName outer)
  pure (sheet.graph.binaryName id)

/-- The name of a type; `boxed` asks for the class of a primitive type. -/
def typeName (sheet : Sheet) (boxed : Bool) : TypeRef → Importing String
  | .any => pure "Object"
  | .string => pure "String"
  | .scalar scalar primitive => pure (scalarName scalar (primitive && !boxed))
  | .library name => libraryName sheet name
  | .generated id => generatedName sheet id
  | .list element => do
    need "java.util.List"
    pure ("List<" ++ (← typeName sheet true element) ++ ">")
  | .set element => do
    need "java.util.Set"
    pure ("Set<" ++ (← typeName sheet true element) ++ ">")

/-- The class that implements a collection type, and its element type. -/
def collection? : TypeRef → Option (String × TypeRef)
  | .list element => some ("ArrayList", element)
  | .set element => some ("LinkedHashSet", element)
  | _ => none

def emptyInitializer (sheet : Sheet) (type : TypeRef) : Importing String :=
  match sheet.settings.initializeCollections, collection? type with
  | true, some (implementation, element) => do
    need ("java.util." ++ implementation)
    pure (" = new " ++ implementation ++ "<" ++ (← typeName sheet true element) ++ ">()")
  | _, _ => pure ""

def literal? (sheet : Sheet) (type : TypeRef) (value : Json) : Importing (Option String) :=
  match type, value with
  | .string, .string text => pure (some (stringLiteral text))
  | .string, .number n => pure (some ("\"" ++ n.text ++ "\""))
  | .string, .bool b => pure (some ("\"" ++ (Json.bool b).text ++ "\""))
  | .scalar scalar _, value => pure (scalarLiteral? scalar value)
  | .library name, .string text => ofLibrary name text
  | .library name, .number n => ofLibrary name n.text
  | .generated id, value =>
    let target := sheet.graph.get id
    match target.kind with
    | .enum =>
      if fitsEnum target.enumValueType value then do
        let name ← generatedName sheet id
        pure (some (name ++ ".fromValue(" ++ enumLiteral target.enumValueType value ++ ")"))
      else pure none
    | .bean =>
      if value.isObject then do pure (some ("new " ++ (← generatedName sheet id) ++ "()"))
      else pure none
    | .interface => pure none
  | _, _ => pure none
where
  ofLibrary (name text : String) : Importing (Option String) :=
    if (libraryLiteral? name name text).isSome then do
      pure (libraryLiteral? name (← libraryName sheet name) text)
    else pure none

def defaultInitializer? (sheet : Sheet) (type : TypeRef) (value : Json) :
    Importing (Option String) :=
  if value.isNull then
    match type with
    | .scalar _ true => pure none
    | _ => pure (some " = null")
  else
    match collection? type with
    | none => do pure ((← literal? sheet type value).map (" = " ++ ·))
    | some (implementation, element) =>
      match value.array? with
      | none => pure none
      | some items => do
        let literals := (← items.mapM (literal? sheet element)).filterMap id
        if literals.isEmpty then return none
        need ("java.util." ++ implementation)
        need "java.util.Arrays"
        let name ← typeName sheet true element
        pure (some (" = new " ++ implementation ++ "<" ++ name ++ ">(Arrays.asList(" ++
          ", ".intercalate literals ++ "))"))

def initializer (sheet : Sheet) (type : TypeRef) (default : Option Json) : Importing String := do
  let stated ← match default with
    | some value => defaultInitializer? sheet type value
    | none => pure none
  match stated with
  | some text => pure text
  | none => emptyInitializer sheet type

def jackson (name : String) : Importing String := do
  need ("com.fasterxml.jackson.annotation." ++ name)
  pure ("@" ++ name)

def validation (sheet : Sheet) (name : String) : Importing String := do
  let base := if sheet.settings.useJakartaValidation then "jakarta" else "javax"
  let package := if name = "Valid" then "validation" else "validation.constraints"
  need (base ++ "." ++ package ++ "." ++ name)
  pure ("@" ++ name)

def quoted (text : String) : String := "(" ++ stringLiteral text ++ ")"

def decimalBound (mark value : String) (inclusive : Bool) : String :=
  if inclusive then mark ++ "(\"" ++ value ++ "\")"
  else mark ++ "(value = \"" ++ value ++ "\", inclusive = false)"

def braced (items : List String) : String := "(\x7b " ++ ", ".intercalate items ++ " \x7d)"

def wireName (style : AnnotationStyle) (name : String) : Importing (Option String) :=
  match style with
  | .jackson2 => do pure (some ((← jackson "JsonProperty") ++ quoted name))
  | .gson => do
    need "com.google.gson.annotations.SerializedName"
    pure (some ("@SerializedName" ++ quoted name))
  | .moshi => do
    need "com.squareup.moshi.Json"
    pure (some ("@Json(name = " ++ stringLiteral name ++ ")"))
  | .none => pure none

def subType (sheet : Sheet) (child : TypeId × Option String) : Importing String := do
  let name ← generatedName sheet child.1
  match child.2 with
  | some tag =>
    pure ("@JsonSubTypes.Type(value = " ++ name ++ ".class, name = " ++ stringLiteral tag ++ ")")
  | none => pure ("@JsonSubTypes.Type(" ++ name ++ ".class)")

def identificationName : Identification → String
  | .logicalName => "NAME"
  | .className => "CLASS"

def inclusionName : Inclusion → String
  | .property => "PROPERTY"
  | .externalProperty => "EXTERNAL_PROPERTY"

def annotationText (sheet : Sheet) : Directive → Importing (Option String)
  | .wireName style name => wireName style name
  | .expose => do
    need "com.google.gson.annotations.Expose"
    pure (some "@Expose")
  | .propertyOrder keys => do
    pure (some ((← jackson "JsonPropertyOrder") ++ braced (keys.map stringLiteral)))
  | .includeNonNull => do
    pure (some ((← jackson "JsonInclude") ++ "(JsonInclude.Include.NON_NULL)"))
  | .typeInfo identification inclusion property => do
    pure (some ((← jackson "JsonTypeInfo") ++ "(use = JsonTypeInfo.Id." ++
      identificationName identification ++ ", include = JsonTypeInfo.As." ++
      inclusionName inclusion ++ ", property = " ++ stringLiteral property ++ ")"))
  | .subTypes children => do
    let mark ← jackson "JsonSubTypes"
    pure (some (mark ++ braced (← children.mapM (subType sheet))))
  | .typeName tag => do pure (some ((← jackson "JsonTypeName") ++ quoted tag))
  | .decimalMin value inclusive => do
    pure (some (decimalBound (← validation sheet "DecimalMin") value inclusive))
  | .decimalMax value inclusive => do
    pure (some (decimalBound (← validation sheet "DecimalMax") value inclusive))
  | .size min max => do
    let arguments := (min.toList.map fun n => "min = " ++ toString n) ++
      max.toList.map fun n => "max = " ++ toString n
    pure (some ((← validation sheet "Size") ++ "(" ++ ", ".intercalate arguments ++ ")"))
  | .pattern pattern => do
    pure (some ((← validation sheet "Pattern") ++ "(regexp = " ++ stringLiteral pattern ++ ")"))
  | .notNull => do pure (some (← validation sheet "NotNull"))
  | .valid => do pure (some (← validation sheet "Valid"))
  | .anyProperties | .enumValue | .doc _ | .requiredDoc => pure none

def annotations (sheet : Sheet) (indent : Nat) (directives : List Directive) : Importing Lines := do
  pure ((← directives.mapM (annotationText sheet)).filterMap fun text => text.map (line indent))

/-- A line of documentation: no white space at its end, and no end of the comment in it. -/
def docLine (indent : Nat) (text : List Char) : String :=
  line indent (" * " ++
    String.ofList (Text.replacePair '*' '/' "*&#47;".toList (Text.trimEnd text)))

def docParagraph (indent : Nat) (text : String) : Lines :=
  (Text.lines text.toList).map (docLine indent)

def docTexts (directives : List Directive) : List String :=
  directives.filterMap fun
    | .doc text => some text
    | _ => none

def docParagraphs (indent : Nat) : List String → Lines
  | [] => []
  | [text] => docParagraph indent text
  | text :: rest => docParagraph indent text ++ line indent " * <p>" :: docParagraphs indent rest

def javadoc (indent : Nat) (directives : List Directive) : Lines :=
  let texts := docTexts directives
  let required := directives.contains .requiredDoc
  if texts.isEmpty && !required then []
  else
    [line indent "/**"] ++ docParagraphs indent texts ++
      (if required then [line indent " * (Required)"] else []) ++ [line indent " */"]

def heading (sheet : Sheet) (indent : Nat) (target : Target) : Importing Lines := do
  let directives := sheet.decorations.on target
  pure (javadoc indent directives ++ (← annotations sheet indent directives))

end SchemaBeans.Java
