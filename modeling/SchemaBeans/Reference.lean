import SchemaBeans.Fault
import SchemaBeans.Percent
/-!
References between schemas. A reference names a document, relative to the one it stands in, and
after a `#` a pointer into it. Document names are kept without `.`, `..` and empty steps, so that a
document has one name however it is reached.
-/

namespace SchemaBeans

namespace Document

def hasScheme (name : String) : Bool :=
  match Text.cutFirst ':' name.toList with
  | some (first :: second :: rest, _) =>
    first.isAlpha && (second :: rest).all fun c => c.isAlphanum || c = '+' || c = '-' || c = '.'
  | _ => false

def splitAuthority : List Char → Option (List Char × List Char)
  | ':' :: '/' :: '/' :: rest =>
    some (':' :: '/' :: '/' :: rest.takeWhile (· ≠ '/'), rest.dropWhile (· ≠ '/'))
  | [] => none
  | c :: rest => (splitAuthority rest).map fun (authority, path) => (c :: authority, path)

def split (name : List Char) : List Char × List Char := (splitAuthority name).getD ([], name)

/-- Drops `.` and inner empty steps, and each `..` together with the step before it; the first step
is never dropped. `done` holds the steps so far, last one first. -/
def settle (done : List (List Char)) (first : Bool) : List (List Char) → List (List Char)
  | [] => done.reverse
  | step :: rest =>
    if step = ['.'] then settle done false rest
    else if step = ['.', '.'] then settle (if 1 < done.length then done.tail else done) false rest
    else if step = [] ∧ first = false ∧ rest ≠ [] then settle done false rest
    else settle (step :: done) false rest

def normal (name : List Char) : List Char :=
  let (authority, path) := split name
  authority ++ Text.join ['/'] (settle [] true (Text.pieces '/' path))

def resolve (base relative : String) : String :=
  let base := base.toList
  let name := relative.toList
  if hasScheme relative then String.ofList (normal name)
  else if name.head? = some '/' then String.ofList (normal ((split base).1 ++ name))
  else
    let directory := match Text.cutLast '/' base with
      | some (directory, _) => directory
      | none => []
    String.ofList (normal (directory ++ '/' :: name))

def ofPath (current path : String) : Except Fault String :=
  if path.isEmpty then .error (.unresolved path .emptyPath)
  else
    let full := (Path.absolute current path).toList.map fun c => if c = '\\' then '/' else c
    let rooted := if full.head? = some '/' then full else '/' :: full
    .ok (String.ofList (normal ("file://".toList ++ rooted)))

def ofName (name : String) : String :=
  if (splitAuthority name.toList).isSome then name
  else "mem:///" ++ String.ofList (name.toList.dropWhile (· = '/'))

end Document

def Location.ofReference (base reference : String) : Except Fault Location :=
  let (document, fragment) := match Text.cutFirst '#' reference.toList with
    | some (document, fragment) => (String.ofList document, some (String.ofList fragment))
    | none => (reference, none)
  let document := if document.isEmpty then base else Document.resolve base document
  let pointer := match fragment with
    | some fragment => Percent.decode fragment
    | none => ""
  if pointer.isEmpty || pointer.toList.head? == some '/' then .ok ⟨document, pointer⟩
  else .error (.unresolved reference .notPointer)

def dataKeywords : List String := ["enum", "const", "default", "examples"]

namespace Json

mutual

/-- Makes every reference below a value independent of the document it stands in, except in data.
The reference of an object is rewritten before its members. -/
def anchor (base : String) : Json → Except Fault Json
  | .array items => do pure (.array (← anchorItems base items))
  | .object members => do
    match members.lookup "$ref" with
    | some (.string reference) => do
      let target ← Location.ofReference base reference
      pure (.object (← anchorMembers base (some target.text) members))
    | _ => pure (.object (← anchorMembers base none members))
  | other => .ok other

def anchorItems (base : String) : List Json → Except Fault (List Json)
  | [] => .ok []
  | item :: rest => do
    let item ← anchor base item
    pure (item :: (← anchorItems base rest))

def anchorMembers (base : String) (target : Option String) : Members → Except Fault Members
  | [] => .ok []
  | (name, value) :: rest => do
    let value ←
      if dataKeywords.contains name then pure value
      else match target, name == "$ref" with
        | some text, true => pure (.string text)
        | _, _ => anchor base value
    pure ((name, value) :: (← anchorMembers base target rest))

end

end Json

end SchemaBeans
