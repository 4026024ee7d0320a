import SchemaBeans.Check
import SchemaBeans.Generation.Rules
import SchemaBeans.Java.SourceFile
/-!
A generation run from the outside: schemas go in one by one, and at the end a model comes out that
can be rendered, written and used to check instances. A run goes on after a fault with what it has.
-/

namespace SchemaBeans

namespace Run

/-- Makes schema text available under a name without generating anything. Answers the document. -/
def registerText (name text : String) : Drafting String := do
  let document := Document.ofName name
  match Json.ofText? text with
  | .error cause => throw (.unresolved document (.malformedText cause))
  | .ok content =>
    modify fun draft => { draft with store := draft.store.register document content }
    pure document

def addText (ctx : Context) (name text : String) : Drafting TypeRef := do
  let document ← registerText name text
  Drafting.generate ctx (.root document)

def currentDirectory (files : FileSystem) : String := "/" ++ "/".intercalate files.current

def addFile (ctx : Context) (path : String) : Drafting TypeRef := do
  let document ← (Document.ofPath (currentDirectory ctx.files) path : Except Fault String)
  Drafting.generate ctx (.root document)

/-- Generates the schema that a document name or path points at, perhaps with a pointer after
`#`. -/
def addReference (ctx : Context) (reference : String) : Drafting TypeRef := do
  let (name, fragment) := match Text.cutFirst '#' reference.toList with
    | some (name, fragment) => (String.ofList name, String.ofList fragment)
    | none => (reference, "")
  let document ←
    if Document.hasScheme name then pure name
    else (Document.ofPath (currentDirectory ctx.files) name : Except Fault String)
  let place ← (Location.ofReference document ("#" ++ fragment) : Except Fault Location)
  Drafting.generate ctx place

def reset : Drafting Unit := set ({} : Draft)

end Run

structure Model where
  graph : TypeGraph
  decorations : Decorations
  settings : Settings

def Run.finish (settings : Settings) (draft : Draft) : Except Fault Model := do
  let graph ← Family.bindAll draft.graph draft.families
  pure ⟨graph, Decoration.decorate settings graph, settings⟩

namespace Model

def sourceFiles (m : Model) : List Java.SourceFile :=
  Java.sourceFiles m.settings m.graph m.decorations

def text (m : Model) : String := "\n".intercalate (m.sourceFiles.map (·.contents))

def target (directory : String) (file : Java.SourceFile) : String := Path.join directory file.path

def write (m : Model) (directory : String) : FileSystem.Action (List String) :=
  m.sourceFiles.mapM fun file => do
    FileSystem.writeBelow (target directory file) file.contents
    pure (target directory file)

def check? (m : Model) (name : String) (v : Json) : Option (List Violation) :=
  (m.graph.find? name).map fun id => Check.violations m.graph m.decorations id v ""

end Model

def generateText (settings : Settings) (schema : String) : Except Fault String :=
  let ctx : Context := ⟨settings, ⟨[], []⟩⟩
  match (Run.addText ctx "root.json" schema).run {} with
  | (.error fault, _) => .error fault
  | (.ok _, draft) => (Run.finish settings draft).map Model.text

def modelOfFiles (settings : Settings) (files : FileSystem) (paths : List String) :
    Except Fault Model :=
  match (paths.forM fun path => do let _ ← Run.addFile ⟨settings, files⟩ path).run {} with
  | (.error fault, _) => .error fault
  | (.ok _, draft) => Run.finish settings draft

/-- Generates the sources of schema files into a directory. Nothing is written if generating
fails. -/
def generateFiles (settings : Settings) (paths : List String) (directory : String) :
    ExceptT Fault (StateM FileSystem) (List String) := do
  let files ← get
  let model ← (modelOfFiles settings files paths : Except Fault Model)
  let (written, files) := (model.write directory).run files
  set files
  match written with
  | .ok paths => pure paths
  | .error cause => throw (.file cause)

end SchemaBeans
