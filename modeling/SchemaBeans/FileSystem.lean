import SchemaBeans.Path
import SchemaBeans.Text.Utf8
/-!
A file system as a value: directories and text files under absolute names, and a current directory.
Every operation answers with a new value or with the fault that the system would report. Steps of a
path are taken one by one, so a step out of a missing directory or through a file fails even if a
later `..` would leave it again.
-/

namespace SchemaBeans

inductive FileFault where
  | notFound
  | alreadyThere
  | notDirectory
  | isDirectory
  | nameTooLong
  | nulInName
  deriving DecidableEq, Repr

def FileFault.message : FileFault → String
  | notFound => "No such file or directory (os error 2)"
  | alreadyThere => "File exists (os error 17)"
  | notDirectory => "Not a directory (os error 20)"
  | isDirectory => "Is a directory (os error 21)"
  | nameTooLong => "File name too long (os error 36)"
  | nulInName => "file name contained an unexpected NUL byte"

inductive Entry where
  | directory
  | file (text : String)
  deriving DecidableEq, Repr

/-- Names lead from the root, outermost first. The root is always a directory. -/
structure FileSystem where
  current : List String
  entries : List (List String × Entry)
  deriving Repr

namespace FileSystem

def entry? (fs : FileSystem) (place : List String) : Option Entry :=
  if place.isEmpty then some .directory else fs.entries.lookup place

def put (fs : FileSystem) (place : List String) (entry : Entry) : FileSystem :=
  { fs with entries := (place, entry) :: fs.entries.filter (·.1 != place) }

def characters (fs : FileSystem) : Nat :=
  fs.entries.foldl (fun total found =>
    match found.2 with
    | .file text => total + text.length
    | .directory => total) 0

def byteLength (text : String) : Nat := (Text.encode text.toList).length

def pathLimit : Nat := 4095
def nameLimit : Nat := 255

/-- Takes the steps of a path from a place. Only a directory can be stepped out of. -/
def walk (fs : FileSystem) (place : List String) : List String → Except FileFault (List String)
  | [] => .ok place
  | step :: rest =>
    match fs.entry? place with
    | none => .error .notFound
    | some (.file _) => .error .notDirectory
    | some .directory =>
      if step = "" ∨ step = "." then walk fs place rest
      else if step = ".." then walk fs place.dropLast rest
      else if nameLimit < byteLength step then .error .nameTooLong
      else walk fs (place ++ [step]) rest

def locate (fs : FileSystem) (path : String) : Except FileFault (List String) :=
  if path.toList.contains '\x00' then .error .nulInName
  else if path.isEmpty then .error .notFound
  else if pathLimit < byteLength path then .error .nameTooLong
  else fs.walk (if Path.isAbsolute path then [] else fs.current) (Path.steps path)

def isDirectory (fs : FileSystem) (path : String) : Bool :=
  match fs.locate path with
  | .ok place => fs.entry? place == some .directory
  | .error _ => false

def read (fs : FileSystem) (path : String) : Except FileFault String := do
  match fs.entry? (← fs.locate path) with
  | none => throw .notFound
  | some .directory => throw .isDirectory
  | some (.file text) => pure text

def isDirectoryAt (fs : FileSystem) (place : List String) : Except FileFault Unit :=
  match fs.entry? place with
  | none => .error .notFound
  | some (.file _) => .error .notDirectory
  | some .directory => .ok ()

/-- Creates a file or replaces its text. The directory it stands in must exist. -/
def write (fs : FileSystem) (path text : String) : Except FileFault FileSystem := do
  let place ← fs.locate path
  if fs.entry? place = some .directory then throw .isDirectory
  fs.isDirectoryAt place.dropLast
  pure (fs.put place (.file text))

def makeDirectory (fs : FileSystem) (path : String) : Except FileFault FileSystem := do
  let place ← fs.locate path
  if (fs.entry? place).isSome then throw .alreadyThere
  fs.isDirectoryAt place.dropLast
  pure (fs.put place .directory)

/-- An operation on the file system. What it did before a fault stays done. -/
abbrev Action := ExceptT FileFault (StateM FileSystem)

def attempt (step : FileSystem → Except FileFault FileSystem) : Action Unit := do
  match step (← get) with
  | .ok fs => set fs
  | .error fault => throw fault

def ensureDirectory (path : String) : Action Unit := do
  match (← get).makeDirectory path with
  | .ok fs => set fs
  | .error fault => unless (← get).isDirectory path do throw fault

def makeDirectories : Nat → String → Action Unit
  | 0, path => if path.isEmpty then pure () else ensureDirectory path
  | fuel + 1, path => do
    if path.isEmpty then return
    match (← get).makeDirectory path, Path.parent? path with
    | .error .notFound, some parent =>
      makeDirectories fuel parent
      ensureDirectory path
    | _, _ => ensureDirectory path

def writeBelow (path text : String) : Action Unit := do
  if let some parent := Path.parent? path then makeDirectories parent.length parent
  attempt (·.write path text)

def namesIn (fs : FileSystem) (place : List String) : List String :=
  (fs.entries.filterMap fun (name, _) =>
    if name.dropLast = place then name.getLast? else none).mergeSort fun a b => decide (a ≤ b)

/-- The files below a path, a directory before what follows it in the order of names. `fuel` bounds
the depth. -/
def filesBelow (fs : FileSystem) : Nat → String → List String → List String
  | 0, _, _ => []
  | fuel + 1, path, place =>
    (fs.namesIn place).flatMap fun name =>
      match fs.entry? (place ++ [name]) with
      | some .directory => filesBelow fs fuel (Path.join path name) (place ++ [name])
      | some (.file _) => [Path.join path name]
      | none => []

def tree (fs : FileSystem) (path : String) : List String :=
  match fs.locate path with
  | .ok place => fs.filesBelow (fs.entries.length + 1) path place
  | .error _ => []

end FileSystem

end SchemaBeans
