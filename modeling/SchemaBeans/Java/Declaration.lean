import SchemaBeans.Java.Source
/-!
The declarations of a source file: classes with fields, accessors and derived members, enums that
look their constants up by value, and interfaces without members. Nested declarations come last.
-/

namespace SchemaBeans.Java

/-- The end of an accessor's name. An underscore that only sets a reserved word apart is dropped. -/
def accessorSuffix (field : String) : String :=
  match field.toList with
  | '_' :: rest =>
    let bare := String.ofList rest
    if Names.isReserved bare then Names.capitalize bare else Names.capitalize field
  | _ => Names.capitalize field

/-- The name of a getter, which may not be the one that every object has. -/
def getterName (field : String) (type : TypeRef) : String :=
  let verb := if type = .scalar .boolean true then "is" else "get"
  let name := verb ++ accessorSuffix field
  if name = "getClass" then "getClass_" else name

def fieldLines (sheet : Sheet) (indent : Nat) (id : TypeId) (property : Property × Nat) :
    Importing Lines := do
  let heading ← heading sheet indent (.property id property.2)
  let type ← typeName sheet false property.1.type
  let initializer ← initializer sheet property.1.type property.1.default
  pure (heading ++
    [line indent ("private " ++ type ++ " " ++ property.1.name ++ initializer ++ ";")])

def accessors (sheet : Sheet) (indent : Nat) (owner : String) (property : Property) :
    Importing Lines := do
  let type ← typeName sheet false property.type
  let field := property.name
  let suffix := accessorSuffix field
  let assignment := "this." ++ field ++ " = " ++ field ++ ";"
  let parameter := "(" ++ type ++ " " ++ field ++ ")"
  let getter :=
    method indent [] ("public " ++ type ++ " " ++ getterName field property.type ++ "()")
    ["return " ++ field ++ ";"]
  let setter := method indent [] ("public void set" ++ suffix ++ parameter) [assignment]
  let fluent :=
    if sheet.settings.generateBuilders then
      method indent [] ("public " ++ owner ++ " with" ++ suffix ++ parameter)
        [assignment, "return this;"]
    else []
  pure (getter ++ setter ++ fluent)

/-- The value type of the extension map, as it is written, and whether Jackson fills the map. -/
structure Extension where
  value : String
  bound : Bool

def extension? (sheet : Sheet) (id : TypeId) : Importing (Option Extension) := do
  match (sheet.graph.get id).additionalProperties with
  | none => pure none
  | some type =>
    need "java.util.Map"
    need "java.util.LinkedHashMap"
    let value ← typeName sheet true type
    pure (some ⟨value, sheet.decorations.has (.extension id) .anyProperties⟩)

def Extension.arguments (e : Extension) : String := "<String, " ++ e.value ++ ">"

def Extension.mark (e : Extension) (name : String) : Importing (List String) :=
  if e.bound then do pure [← jackson name] else pure []

def Extension.field (e : Extension) (indent : Nat) : Importing Lines := do
  let mark ← e.mark "JsonIgnore"
  pure (mark.map (line indent) ++
    [line indent ("private Map" ++ e.arguments ++ " additionalProperties = new LinkedHashMap" ++
      e.arguments ++ "();")])

def Extension.accessors (e : Extension) (sheet : Sheet) (indent : Nat) (owner : String) :
    Importing Lines := do
  let getterMark ← e.mark "JsonAnyGetter"
  let setterMark ← e.mark "JsonAnySetter"
  let parameters := "(String name, " ++ e.value ++ " value)"
  let insertion := "this.additionalProperties.put(name, value);"
  let getter := method indent getterMark
    ("public Map" ++ e.arguments ++ " getAdditionalProperties()")
    ["return this.additionalProperties;"]
  let setter := method indent setterMark
    ("public void setAdditionalProperty" ++ parameters) [insertion]
  let fluent :=
    if sheet.settings.generateBuilders then
      method indent [] ("public " ++ owner ++ " withAdditionalProperty" ++ parameters)
        [insertion, "return this;"]
    else []
  pure (getter ++ setter ++ fluent)

def inheritsMembers (g : TypeGraph) (decl : TypeDecl) : Bool :=
  decl.superclass?.any fun parent => (g.get parent).kind == .bean

def comparedFields (decl : TypeDecl) : List String :=
  decl.properties.map (·.name) ++
    if decl.additionalProperties.isSome then ["additionalProperties"] else []

def toStringMethod (indent : Nat) (name : String) (inherits : Bool) (fields : List String) :
    Lines :=
  let parts := (if inherits then [("super", "super.toString()")] else []) ++
    fields.map fun field => (field, "this." ++ field)
  let shown := parts.zipIdx.map fun ((label, value), i) =>
    " + \"" ++ (if i = 0 then "" else ", ") ++ label ++ "=\" + " ++ value
  method indent ["@Override"] "public String toString()"
    ["return \"" ++ name ++ "\x7b\"" ++ "".intercalate shown ++ " + \"\x7d\";"]

def hashCodeMethod (indent : Nat) (inherits : Bool) (fields : List String) : Lines :=
  let hashed := (if inherits then ["super.hashCode()"] else []) ++ fields.map ("this." ++ ·)
  method indent ["@Override"] "public int hashCode()"
    ["return Objects.hash(" ++ ", ".intercalate hashed ++ ");"]

def equalsMethod (indent : Nat) (name : String) (inherits : Bool) (fields : List String) : Lines :=
  let conditions := (if inherits then ["super.equals(rhs)"] else []) ++
    fields.map fun field => "Objects.equals(this." ++ field ++ ", rhs." ++ field ++ ")"
  let comparison :=
    if conditions.isEmpty then ["return true;"]
    else
      [name ++ " rhs = ((" ++ name ++ ") other);",
        "return " ++ " && ".intercalate conditions ++ ";"]
  method indent ["@Override"] "public boolean equals(Object other)"
    (["if (other == this) \x7b", "    return true;", "\x7d",
      "if (!(other instanceof " ++ name ++ ")) \x7b", "    return false;", "\x7d"] ++ comparison)

def derivedMembers (sheet : Sheet) (indent : Nat) (decl : TypeDecl) : Importing Lines := do
  let inherits := inheritsMembers sheet.graph decl
  let fields := comparedFields decl
  let shown := if sheet.settings.includeToString then
    toStringMethod indent decl.name inherits fields else []
  if sheet.settings.includeHashcodeAndEquals then
    need "java.util.Objects"
    pure (shown ++ hashCodeMethod indent inherits fields ++
      equalsMethod indent decl.name inherits fields)
  else pure shown

def supertypes (sheet : Sheet) (decl : TypeDecl) : Importing String := do
  let extended ← match decl.supertype with
    | some supertype => do pure (" extends " ++ (← typeName sheet false supertype))
    | none => pure ""
  if decl.interfaces.isEmpty then pure extended
  else
    let names ← decl.interfaces.mapM (generatedName sheet)
    pure (extended ++ " implements " ++ ", ".intercalate names)

def classLines (sheet : Sheet) (indent : Nat) (id : TypeId) : Importing Lines := do
  let decl := sheet.graph.get id
  let heading ← heading sheet indent (.type id)
  let opening := if decl.enclosing.isSome then "public static class " else "public class "
  let header := opening ++ decl.name ++ (← supertypes sheet decl) ++ " \x7b"
  let fields ← decl.properties.zipIdx.mapM (fieldLines sheet (indent + 1) id)
  let extension ← extension? sheet id
  let extensionField ← match extension with
    | some e => e.field (indent + 1)
    | none => pure []
  let accessors ← decl.properties.mapM (accessors sheet (indent + 1) decl.name)
  let extensionAccessors ← match extension with
    | some e => e.accessors sheet (indent + 1) decl.name
    | none => pure []
  let derived ← derivedMembers sheet (indent + 1) decl
  pure (heading ++ [line indent header, ""] ++ fields.flatten ++ extensionField ++
    accessors.flatten ++ extensionAccessors ++ derived)

def constantLines (sheet : Sheet) (indent : Nat) (id : TypeId) (type : TypeRef) (count : Nat)
    (constant : EnumConstant × Nat) : Importing Lines := do
  let marks ← annotations sheet indent (sheet.decorations.on (.constant id constant.2))
  let terminator := if constant.2 + 1 = count then ";" else ","
  pure (marks ++
    [line indent (constant.1.name ++ "(" ++ enumLiteral type constant.1.value ++
      ")" ++ terminator)])

def enumLines (sheet : Sheet) (indent : Nat) (id : TypeId) : Importing Lines := do
  let decl := sheet.graph.get id
  let name := decl.name
  let heading ← heading sheet indent (.type id)
  let type ← typeName sheet true decl.enumValueType
  let inner := indent + 1
  let constants ← decl.constants.zipIdx.mapM
    (constantLines sheet inner id decl.enumValueType decl.constants.length)
  need "java.util.Map"
  need "java.util.HashMap"
  let arguments := "<" ++ type ++ ", " ++ name ++ ">"
  let jacksonValue := sheet.decorations.has (.type id) .enumValue
  let valueMark ← if jacksonValue then do pure [← jackson "JsonValue"] else pure []
  let creatorMark ← if jacksonValue then do pure [← jackson "JsonCreator"] else pure []
  pure (heading ++
    [line indent ("public enum " ++ name ++ " \x7b"), ""] ++
    (if decl.constants.isEmpty then [line inner ";"] else []) ++
    constants.flatten ++
    [line inner ("private final " ++ type ++ " value;"),
      line inner ("private static final Map" ++ arguments ++ " CONSTANTS = new HashMap" ++
        arguments ++ "();"),
      "",
      line inner "static \x7b",
      line (inner + 1) ("for (" ++ name ++ " c: values()) \x7b"),
      line (inner + 2) "CONSTANTS.put(c.value, c);",
      line (inner + 1) "\x7d",
      line inner "\x7d"] ++
    method inner [] (name ++ "(" ++ type ++ " value)") ["this.value = value;"] ++
    method inner ["@Override"] "public String toString()" ["return String.valueOf(this.value);"] ++
    method inner valueMark ("public " ++ type ++ " value()") ["return this.value;"] ++
    method inner creatorMark ("public static " ++ name ++ " fromValue(" ++ type ++ " value)")
      [name ++ " constant = CONSTANTS.get(value);",
        "if (constant == null) \x7b",
        "    throw new IllegalArgumentException(String.valueOf(value));",
        "\x7d",
        "return constant;"])

def interfaceLines (sheet : Sheet) (indent : Nat) (id : TypeId) : Importing Lines := do
  let heading ← heading sheet indent (.type id)
  pure (heading ++
    [line indent ("public interface " ++ (sheet.graph.get id).name ++ " \x7b")])

def openLines (sheet : Sheet) (indent : Nat) (id : TypeId) : Importing Lines :=
  match (sheet.graph.get id).kind with
  | .bean => classLines sheet indent id
  | .enum => enumLines sheet indent id
  | .interface => interfaceLines sheet indent id

/-- A declaration with those nested in it; `fuel` bounds how deep they are nested. -/
def declarationLines (sheet : Sheet) : Nat → Nat → TypeId → Importing Lines
  | 0, _, _ => pure []
  | fuel + 1, indent, id => do
    let opened ← openLines sheet indent id
    let nested ← (sheet.graph.nested id).mapM (declarationLines sheet fuel (indent + 1))
    pure (opened ++ nested.flatMap ("" :: ·) ++ [line indent "\x7d"])

end SchemaBeans.Java
