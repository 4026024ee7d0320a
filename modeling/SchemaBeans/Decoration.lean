import SchemaBeans.Json.Printer
import SchemaBeans.Text.Split
import SchemaBeans.TypeGraph
/-!
What is attached to generated types besides their code: annotations and documentation. Four families
of directives decide on their own, each from the graph and the settings, so any of them can be left
out without changing the others.
-/

namespace SchemaBeans

/-- What a directive is attached to. Properties and constants are counted from zero. -/
inductive Target where
  | type (id : TypeId)
  | property (id : TypeId) (index : Nat)
  | constant (id : TypeId) (index : Nat)
  | extension (id : TypeId)
  deriving DecidableEq, Repr

inductive Directive where
  | wireName (style : AnnotationStyle) (name : String)
  | expose
  | propertyOrder (keys : List String)
  | includeNonNull
  | anyProperties
  | enumValue
  | typeInfo (identification : Identification) (inclusion : Inclusion) (property : String)
  | subTypes (children : List (TypeId × Option String))
  | typeName (name : String)
  | decimalMin (value : String) (inclusive : Bool)
  | decimalMax (value : String) (inclusive : Bool)
  | size (min max : Option Nat)
  | pattern (pattern : String)
  | notNull
  | valid
  | doc (text : String)
  | requiredDoc
  deriving DecidableEq, Repr

/-- Directives with their targets, in the order in which the families attach them. -/
abbrev Decorations := List (Target × Directive)

namespace Decorations

def on (d : Decorations) (target : Target) : List Directive :=
  d.filterMap fun (place, directive) => if place = target then some directive else none

def has (d : Decorations) (target : Target) (directive : Directive) : Bool :=
  (d.on target).contains directive

end Decorations

namespace Decoration

def trimmed? (text : Option String) : Option String :=
  (text.map fun t => String.ofList (Text.trim t.toList)).filter (!·.isEmpty)

def bindingFamily (settings : Settings) (g : TypeGraph) (id : TypeId) : Decorations :=
  let decl := g.get id
  let style := settings.annotationStyle
  let onType : Decorations := match decl.kind, style with
    | .bean, .jackson2 =>
      [(.type id, .includeNonNull)] ++
        (if decl.properties.isEmpty then []
          else [(.type id, .propertyOrder (decl.properties.map (·.key)))]) ++
        (if decl.additionalProperties.isSome then [(.extension id, .anyProperties)] else [])
    | .enum, .jackson2 => [(.type id, .enumValue)]
    | .enum, _ =>
      decl.constants.zipIdx.filterMap fun (constant, i) =>
        let literal := constant.value.plainText
        if literal = constant.name then none
        else some (.constant id i, .wireName style literal)
    | _, _ => []
  let onProperties := decl.properties.zipIdx.flatMap fun (property, i) =>
    (if property.name = property.key then []
      else [(Target.property id i, Directive.wireName style property.key)]) ++
      (if style = .gson then [(.property id i, .expose)] else [])
  onType ++ onProperties

def tagOf? (g : TypeGraph) (id : TypeId) : Option String :=
  g.ids.findSome? fun parent =>
    match (g.get parent).binding with
    | some binding =>
      if binding.identification = .logicalName then binding.children.lookup id else none
    | none => none

def typeInfoFamily (_ : Settings) (g : TypeGraph) (id : TypeId) : Decorations :=
  let ofBinding : Decorations := match (g.get id).binding with
    | some b =>
      let tagged := b.children.map fun (child, tag) =>
        (child, if b.identification = .logicalName then some tag else none)
      [(.type id, .typeInfo b.identification b.inclusion b.property), (.type id, .subTypes tagged)]
    | none => []
  ofBinding ++ (tagOf? g id).toList.map fun tag => (.type id, .typeName tag)

def boundDirective (make : String → Bool → Directive) (bound : Option Bound) : List Directive :=
  bound.toList.map fun b => make b.value.text (!b.exclusive)

def cascades (g : TypeGraph) (type : TypeRef) : Bool :=
  type.target?.any fun id => (g.get id).kind != .enum

def validation (g : TypeGraph) (property : Property) : List Directive :=
  let c := property.constraints
  boundDirective .decimalMin c.minimum ++ boundDirective .decimalMax c.maximum ++
    (if c.minSize.isSome || c.maxSize.isSome then [.size c.minSize c.maxSize] else []) ++
    c.pattern.toList.map .pattern ++
    (if property.required then [.notNull] else []) ++
    (if cascades g property.type then [.valid] else [])

def validationFamily (_ : Settings) (g : TypeGraph) (id : TypeId) : Decorations :=
  (g.get id).properties.zipIdx.flatMap fun (property, i) =>
    (validation g property).map fun directive => (.property id i, directive)

def documentation (title description : Option String) : List Directive :=
  ((trimmed? title).toList ++ (trimmed? description).toList).map .doc

def documentationFamily (_ : Settings) (g : TypeGraph) (id : TypeId) : Decorations :=
  let decl := g.get id
  (documentation decl.title decl.description).map (fun directive => (.type id, directive)) ++
    decl.properties.zipIdx.flatMap fun (property, i) =>
      (documentation property.title property.description ++
        if property.required then [Directive.requiredDoc] else []).map fun directive =>
          (.property id i, directive)

/-- A family of directives, and the settings under which it takes part. -/
structure Family where
  enabled : Settings → Bool
  decorate : Settings → TypeGraph → TypeId → Decorations

def families : List Family := [
  ⟨fun s => s.annotationStyle != .none, bindingFamily⟩,
  ⟨fun s => s.includeTypeInfo && s.annotationStyle.supportsTypeInfo, typeInfoFamily⟩,
  ⟨fun s => s.includeJsr303Annotations, validationFamily⟩,
  ⟨fun s => s.includeDocumentation, documentationFamily⟩]

/-- The directives of every family that takes part, family by family and type by type. -/
def decorate (settings : Settings) (g : TypeGraph) : Decorations :=
  (families.filter (·.enabled settings)).flatMap fun family =>
    g.ids.flatMap (family.decorate settings g)

end Decoration

end SchemaBeans
