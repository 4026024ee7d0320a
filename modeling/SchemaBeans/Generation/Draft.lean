import SchemaBeans.Discriminator.Family
import SchemaBeans.Names
import SchemaBeans.Store
/-!
The state of a generation run: the schemas seen, the types made for them, the names given away, and
the families still to be linked. A type is declared once for a schema location, and it has its name
before anything is known about its members.
-/

namespace SchemaBeans

structure Context where
  settings : Settings
  files : FileSystem
  deriving Repr

structure Draft where
  store : Store := {}
  graph : TypeGraph := {}
  registry : NameRegistry := {}
  families : List Family := []
  merging : List NodeId := []
  deriving Repr, Inhabited

/-- A step of a run. What it did before a fault stays done. -/
abbrev Drafting := ExceptT Fault (StateM Draft)

inductive Placement where
  | topLevel
  | inside (owner : TypeId)
  deriving DecidableEq, Repr

structure Request where
  name : String
  placement : Placement
  deriving DecidableEq, Repr

inductive Registration where
  | created (id : TypeId)
  | existing (id : TypeId)
  deriving DecidableEq, Repr

namespace Drafting

def inStore {α : Type} (action : Store.Action α) : Drafting α := do
  let draft ← get
  let (result, store) := action.run draft.store
  set { draft with store := store }
  match result with
  | .ok a => pure a
  | .error fault => throw fault

def node (id : NodeId) : Drafting SchemaNode := do pure ((← get).store.node id)

def child (ctx : Context) (parent : NodeId) (segments : List String) : Drafting Store.Child :=
  inStore (Store.child ctx.files parent segments)

def decl (id : TypeId) : Drafting TypeDecl := do pure ((← get).graph.get id)

def update (id : TypeId) (change : TypeDecl → TypeDecl) : Drafting Unit :=
  modify fun draft => { draft with graph := draft.graph.update id change }

structure Slot where
  package : String
  name : String
  enclosing : Option TypeId
  deriving DecidableEq, Repr

def rawName (settings : Settings) (keywords : Keywords) (request : Request) : String :=
  match keywords.title with
  | some title =>
    let trimmed := Text.trim title.toList
    if settings.useTitleAsClassName && !trimmed.isEmpty then String.ofList trimmed
    else request.name
  | none => request.name

def slot (settings : Settings) (graph : TypeGraph) (request : Request) (keywords : Keywords) :
    Slot :=
  match keywords.javaType with
  | some javaType =>
    match Text.cutLast '.' javaType.toList with
    | some (package, simple) => ⟨String.ofList package, String.ofList simple, none⟩
    | none => ⟨settings.targetPackage, javaType, none⟩
  | none =>
    let name := Names.typeName settings (rawName settings keywords request)
    match request.placement with
    | .topLevel => ⟨settings.targetPackage, name, none⟩
    | .inside owner => ⟨(graph.get owner).package, name, some owner⟩

def Slot.qualified (graph : TypeGraph) (slot : Slot) : String :=
  match slot.enclosing with
  | some owner => graph.qualifiedName owner ++ "." ++ slot.name
  | none => TypeGraph.inPackage slot.package slot.name

def checkEnclosing (graph : TypeGraph) (slot : Slot) (place : Location) : Except Fault Unit :=
  match slot.enclosing with
  | none => .ok ()
  | some owner =>
    match (graph.outwards owner).find? fun id => (graph.get id).name == slot.name with
    | none => .ok ()
    | some id =>
      .error (.nameConflict (graph.qualifiedName id) (graph.get id).place.text place.text)

/-- Declares the type of a schema, or reports the one that its location has. -/
def declare (ctx : Context) (request : Request) (id : NodeId) (kind : TypeKind) :
    Drafting Registration := do
  let schema ← node id
  let graph := (← get).graph
  let slot := slot ctx.settings graph request schema.keywords
  let qualified := slot.qualified graph
  match ← ((← get).registry.claim qualified schema.location : Except Fault Claim) with
  | .taken id => pure (.existing id)
  | .vacant =>
    (checkEnclosing graph slot schema.location : Except Fault Unit)
    let (id, graph) := graph.insert
      { kind := kind, package := slot.package, name := slot.name, enclosing := slot.enclosing,
        place := schema.location, title := schema.keywords.title,
        description := schema.keywords.description }
    modify fun draft =>
      { draft with
        graph := graph
        registry := draft.registry.record qualified id schema.location }
    pure (.created id)

end Drafting

end SchemaBeans
