import SchemaBeans.NameRegistry
import SchemaBeans.Settings.Basic
/-!
The types generated in a run, in the order of their creation. Types refer to one another by number,
so a field can have a type whose own fields are not known yet. A nested type is created after the
type it stands in, so the way outwards always ends.
-/

namespace SchemaBeans

inductive TypeKind where
  | bean
  | enum
  | interface
  deriving DecidableEq, Repr, Inhabited

inductive Scalar where
  | integer
  | long
  | float
  | double
  | boolean
  deriving DecidableEq, Repr

/-- The declared type of a field, of the elements of a collection or of extension values. -/
inductive TypeRef where
  | any
  | string
  | scalar (scalar : Scalar) (primitive : Bool)
  | library (name : String)
  | generated (id : TypeId)
  | list (element : TypeRef)
  | set (element : TypeRef)
  deriving DecidableEq, Repr, Inhabited

namespace TypeRef

def target? : TypeRef → Option TypeId
  | generated id => some id
  | list element => element.target?
  | set element => element.target?
  | _ => none

def isCollection : TypeRef → Bool
  | list _ => true
  | set _ => true
  | _ => false

end TypeRef

structure Bound where
  value : JsonNumber
  exclusive : Bool
  deriving DecidableEq, Repr

structure Constraints where
  minimum : Option Bound := none
  maximum : Option Bound := none
  minSize : Option Nat := none
  maxSize : Option Nat := none
  pattern : Option String := none
  deriving DecidableEq, Repr, Inhabited

structure Property where
  key : String
  name : String
  type : TypeRef
  required : Bool := false
  title : Option String := none
  description : Option String := none
  constraints : Constraints := {}
  default : Option Json := none
  deriving Repr, Inhabited

structure EnumConstant where
  name : String
  value : Json
  deriving Repr, Inhabited

inductive Inclusion where
  | property
  | externalProperty
  deriving DecidableEq, Repr, Inhabited

/-- How values of a family of types tell which of them they are. -/
structure Binding where
  inclusion : Inclusion
  identification : Identification
  property : String
  children : List (TypeId × String)
  deriving DecidableEq, Repr

structure TypeDecl where
  kind : TypeKind := .bean
  package : String := ""
  name : String := ""
  enclosing : Option TypeId := none
  place : Location := ⟨"", ""⟩
  title : Option String := none
  description : Option String := none
  properties : List Property := []
  constants : List EnumConstant := []
  enumValueType : TypeRef := .string
  supertype : Option TypeRef := none
  interfaces : List TypeId := []
  subtypes : List TypeId := []
  additionalProperties : Option TypeRef := none
  binding : Option Binding := none
  nested : List TypeId := []
  deriving Repr, Inhabited

def TypeDecl.property? (decl : TypeDecl) (name : String) : Option Property :=
  decl.properties.find? (·.name == name)

def TypeDecl.superclass? (decl : TypeDecl) : Option TypeId :=
  match decl.supertype with
  | some (.generated id) => some id
  | _ => none

/-- The types with the ids of those declared in them, and the index of their schema locations. -/
structure TypeGraph where
  types : Array TypeDecl := #[]
  places : List (Location × TypeId) := []
  deriving Repr, Inhabited

namespace TypeGraph

def size (g : TypeGraph) : Nat := g.types.size

def ids (g : TypeGraph) : List TypeId := (List.range g.size).map TypeId.mk

/-- An id that was not handed out reads as an empty class. -/
def get (g : TypeGraph) (id : TypeId) : TypeDecl := g.types.getD id.index {}

def update (g : TypeGraph) (id : TypeId) (change : TypeDecl → TypeDecl) : TypeGraph :=
  { g with types := g.types.modify id.index change }

/-- A new type is listed in the type it stands in and indexed by its place. -/
def insert (g : TypeGraph) (decl : TypeDecl) : TypeId × TypeGraph :=
  let id : TypeId := ⟨g.size⟩
  let listed := match decl.enclosing with
    | some owner => g.update owner fun d => { d with nested := d.nested ++ [id] }
    | none => g
  (id, ⟨listed.types.push decl, (decl.place, id) :: g.places⟩)

def typeAt? (g : TypeGraph) (place : Location) : Option TypeId := g.places.lookup place

def nested (g : TypeGraph) (id : TypeId) : List TypeId := (g.get id).nested

def topLevel (g : TypeGraph) : List TypeId := g.ids.filter fun id => (g.get id).enclosing.isNone

def chain (link : TypeId → Option TypeId) : Nat → TypeId → List TypeId
  | 0, _ => []
  | fuel + 1, id =>
    match link id with
    | some next => id :: chain link fuel next
    | none => [id]

def outwards (g : TypeGraph) (id : TypeId) : List TypeId :=
  chain (fun id => (g.get id).enclosing) (g.size + 1) id

def lineage (g : TypeGraph) (id : TypeId) : List TypeId :=
  chain (fun id => (g.get id).superclass?) (g.size + 1) id

def inherits (g : TypeGraph) (id ancestor : TypeId) : Bool := (g.lineage id).contains ancestor

def outermost (g : TypeGraph) (id : TypeId) : TypeId := (g.outwards id).getLast?.getD id

def binaryName (g : TypeGraph) (id : TypeId) : String :=
  ".".intercalate ((g.outwards id).reverse.map fun id => (g.get id).name)

def inPackage (package name : String) : String :=
  if package.isEmpty then name else package ++ "." ++ name

def qualifiedName (g : TypeGraph) (id : TypeId) : String :=
  inPackage (g.get id).package (g.binaryName id)

/-- The first type of a qualified name, or else the only one of a name within its package. -/
def find? (g : TypeGraph) (name : String) : Option TypeId :=
  match g.ids.find? fun id => g.qualifiedName id == name with
  | some id => some id
  | none =>
    match g.ids.filter fun id => g.binaryName id == name with
    | [only] => some only
    | _ => none

end TypeGraph

end SchemaBeans
