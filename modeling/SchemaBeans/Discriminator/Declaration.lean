import SchemaBeans.TypeGraph
/-!
What a schema declares about its family of subtypes: the property that carries the tag, how the tag
is read, and the children. A bare string names the property; an object may say more.
-/

namespace SchemaBeans

/-- A declared child: a reference to its schema, or the name of its class. -/
inductive ChildTarget where
  | reference (text : String)
  | className (name : String)
  deriving DecidableEq, Repr

structure ChildDeclaration where
  target : ChildTarget
  tag : Option String
  deriving DecidableEq, Repr

structure Discriminator where
  inclusion : Inclusion
  identification : Identification
  property : String
  children : List ChildDeclaration
  deriving DecidableEq, Repr

namespace Discriminator

def defaultProperty : Identification → String
  | .logicalName => "@type"
  | .className => "@class"

/-- A member that is a string if it is there. -/
def optionalString (members : Json.Members) (key : String) :
    Except BadDiscriminator (Option String) :=
  match members.lookup key with
  | none => .ok none
  | some (.string text) => .ok (some text)
  | some _ => .error (.notString key)

def child : Json → Except BadDiscriminator ChildDeclaration
  | .object members => do
    let tag ← optionalString members "value"
    let reference ← optionalString members "$ref"
    let className ← optionalString members "className"
    match reference, className with
    | some text, none => pure ⟨.reference text, tag⟩
    | none, some name => pure ⟨.className name, tag⟩
    | _, _ => throw .childWithoutTarget
  | _ => .error .childNoObject

def mapped : String × Json → Except BadDiscriminator ChildDeclaration
  | (tag, .string text) => .ok ⟨.reference text, some tag⟩
  | (tag, _) => .error (.mappingNoReference tag)

def inclusionOf : Option String → Except BadDiscriminator Inclusion
  | none => .ok .property
  | some "property" => .ok .property
  | some "externalProperty" => .ok .externalProperty
  | some other => .error (.unknownInclude other)

def identificationOf (default : Identification) :
    Option String → Except BadDiscriminator Identification
  | none => .ok default
  | some "name" => .ok .logicalName
  | some "class" => .ok .className
  | some other => .error (.unknownUse other)

def listed (members : Json.Members) : Except BadDiscriminator (List ChildDeclaration) :=
  match members.lookup "children" with
  | none => .ok []
  | some (.array entries) => entries.mapM child
  | some _ => .error .childrenNoArray

def mapping (members : Json.Members) : Except BadDiscriminator (List ChildDeclaration) :=
  match members.lookup "mapping" with
  | none => .ok []
  | some (.object entries) => entries.mapM mapped
  | some _ => .error .mappingNoObject

def ofMembers (default : Identification) (members : Json.Members) :
    Except BadDiscriminator Discriminator := do
  let property ← optionalString members "propertyName"
  let mode ← optionalString members "include"
  let inclusion ← inclusionOf mode
  let identification ← identificationOf default (← optionalString members "use")
  let property ← match property, mode with
    | some name, _ => pure name
    | none, some _ => throw .includeWithoutName
    | none, none => pure (defaultProperty identification)
  let listed ← listed members
  let mapped ← mapping members
  pure ⟨inclusion, identification, property, listed ++ mapped⟩

def ofJson (default : Identification) : Json → Except BadDiscriminator Discriminator
  | .string name => .ok ⟨.property, default, name, []⟩
  | .object members => ofMembers default members
  | _ => .error .neitherNameNorObject

end Discriminator

end SchemaBeans
