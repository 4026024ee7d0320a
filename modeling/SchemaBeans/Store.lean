import SchemaBeans.Keywords.Decoding
import SchemaBeans.Reference
/-!
The schemas of a run. Every location has one node, and a location that holds a reference has the
node of its target, so a reference and its target cannot be told apart afterwards. Documents come
from memory or, on first use, from files.
-/

namespace SchemaBeans

structure NodeId where
  index : Nat
  deriving DecidableEq, Repr, Inhabited

structure SchemaNode where
  location : Location
  parent : Option NodeId
  content : Json
  keywords : Keywords
  shape : Shape
  deriving Repr, Inhabited

structure Store where
  documents : List (String × Json) := []
  nodes : Array SchemaNode := #[]
  index : List (Location × NodeId) := []
  deriving Repr, Inhabited

namespace Store

def register (store : Store) (document : String) (content : Json) : Store :=
  { store with documents := (document, content) :: store.documents }

def node (store : Store) (id : NodeId) : SchemaNode := store.nodes.getD id.index default

def id? (store : Store) (place : Location) : Option NodeId := store.index.lookup place

def bind (store : Store) (place : Location) (id : NodeId) : Store :=
  { store with index := (place, id) :: store.index }

def add (store : Store) (node : SchemaNode) : NodeId × Store :=
  let id : NodeId := ⟨store.nodes.size⟩
  (id, { store with nodes := store.nodes.push node, index := (node.location, id) :: store.index })

def values (files : FileSystem) (store : Store) : Nat :=
  store.documents.foldl (fun total document => total + document.2.size) files.characters

/-- No file has a longer name: three characters may stand for one octet, and four octets for one
character of its path. -/
def nameLimit : Nat := 7 + 12 * FileSystem.pathLimit

def longest (files : FileSystem) (store : Store) : Nat :=
  store.documents.foldl (fun most document => max most (max document.1.length document.2.longest))
    (max nameLimit files.characters)

/-- At least as many as there are locations whose document and pointer have at most `length`
characters. -/
def spellings (length : Nat) : Nat := Nat.pow 2 (42 * length)

/-- No chain of references is longer than the number of locations that it can come by, with the
location it starts from and the first one it leads to. -/
def reach (files : FileSystem) (store : Store) : Nat := spellings (store.longest files) + 2

abbrev Action := ExceptT Fault (StateM Store)

def fetch (files : FileSystem) (document : String) : Except Fault Json :=
  let scheme := "file://"
  if scheme.toList.isPrefixOf document.toList then
    let path := Percent.decode (String.ofList (document.toList.drop scheme.length))
    match files.read path with
    | .error cause => .error (.unresolved document (.unreadable cause))
    | .ok text =>
      match Json.ofText? text with
      | .ok content => .ok content
      | .error cause => .error (.unresolved document (.malformedDocument cause))
  else .error (.unresolved document .unsupportedScheme)

def document (files : FileSystem) (name : String) : Action Json := do
  match (← get).documents.lookup name with
  | some content => pure content
  | none =>
    let content ← (fetch files name : Except Fault Json)
    modify (·.register name content)
    pure content

def keywordsOf (place : Location) : Json → Except Fault Keywords
  | .object members =>
    match Keywords.ofJson (.object members) with
    | .ok keywords => .ok keywords
    | .error cause => .error (.unsupported place (.keywords cause))
  | .bool true => .ok {}
  | .bool false => .error (.unsupported place .falseSchema)
  | _ => .error (.unresolved place.text .notSchema)

/-- Makes the node of a location from its content. A reference is handed to `follow`, and its target
becomes the node of this location too. -/
def materialize (follow : Location → Action NodeId) (place : Location) (parent : Option NodeId)
    (content : Json) : Action NodeId := do
  let keywords ← (keywordsOf place content : Except Fault Keywords)
  match keywords.reference with
  | some reference =>
    let target ← (Location.ofReference place.document reference : Except Fault Location)
    let id ← follow target
    modify (·.bind place id)
    pure id
  | none =>
    match Shape.classify keywords with
    | .error name => throw (.unsupported place (.unknownType name))
    | .ok shape => modifyGet (·.add ⟨place, parent, content, keywords, shape⟩)

/-- The node of a location, at the end of the references that start there. `chain` holds the
locations passed; `fuel` bounds their number. -/
def follow (files : FileSystem) : Nat → List Location → Location → Action NodeId
  | 0, _, _ => throw .endless
  | fuel + 1, chain, place => do
    if let some id := (← get).id? place then return id
    if chain.contains place then throw (.unresolved place.text .circular)
    let content ← document files place.document
    match content.lookup? place.pointer with
    | none => throw (.unresolved place.text .missingPointer)
    | some part => materialize (follow files fuel (place :: chain)) place none part

def resolve (files : FileSystem) (place : Location) : Action NodeId := do
  follow files ((← get).reach files) [] place

def load (files : FileSystem) (path : String) : Action NodeId := do
  let current := "/" ++ "/".intercalate files.current
  let document ← (Document.ofPath current path : Except Fault String)
  resolve files (.root document)

structure Child where
  id : NodeId
  byReference : Bool
  deriving DecidableEq, Repr

def child (files : FileSystem) (parent : NodeId) (segments : List String) : Action Child := do
  let above := (← get).node parent
  let place := above.location.below segments
  let id ← match (← get).id? place with
    | some id => pure id
    | none =>
      match above.content.descend? segments with
      | none => throw (.unresolved place.text .missingPath)
      | some content =>
        materialize (follow files ((← get).reach files) [place]) place (some parent) content
  pure ⟨id, ((← get).node id).location ≠ place⟩

def resolveReference (files : FileSystem) (source : NodeId) (reference : String) :
    Action NodeId := do
  let base := ((← get).node source).location.document
  let target ← (Location.ofReference base reference : Except Fault Location)
  resolve files target

def synthesize (files : FileSystem) (place : Location) (parent : NodeId) (content : Json) :
    Action NodeId := do
  match (← get).id? place with
  | some id => pure id
  | none => materialize (follow files ((← get).reach files) [place]) place (some parent) content

end Store

end SchemaBeans
