import SchemaBeans.CommandLine
/-!
The command. It hands the files it is asked for to the generator, which works on them as a value,
and reads further files when a schema refers to them. The sources are written at the end.
-/

namespace SchemaBeans.CommandLine

def usageText : String :=
  "Usage: schemabeans --target <TARGET> [OPTIONS] <SOURCES>...\n\n" ++
  "  -t, --target <TARGET>            Directory the generated sources are written to\n" ++
  "  -p, --package <PACKAGE>          Package of generated types\n" ++
  "  -c, --config <CONFIG>            JSON settings file; " ++
    "command-line flags override its values\n" ++
  "  -a, --annotation-style <STYLE>   jackson2, gson, moshi or none\n" ++
  "  -b, --builders                   Emit fluent setters\n" ++
  "      --use-primitives             Use primitive types where possible\n" ++
  "      --use-long-integers          Map integers to Long\n" ++
  "      --use-big-decimals           Map numbers to BigDecimal\n" ++
  "      --jsr303-annotations         Emit bean-validation annotations\n" ++
  "      --jakarta                    Use jakarta.validation\n" ++
  "      --no-additional-properties   Do not generate extension maps for open objects\n"

def addStep (reached : FileSystem × List String) (step : String) : FileSystem × List String :=
  let (files, place) := reached
  let next :=
    if step = "" ∨ step = "." then place
    else if step = ".." then place.dropLast
    else place ++ [step]
  (if place.isEmpty then files else files.put place .directory, next)

/-- Puts an entry in at an absolute path, with the directories on the way. -/
def addPlace (files : FileSystem) (path : String) (entry : Entry) : FileSystem :=
  let (files, place) := (Path.steps path).foldl addStep (files, [])
  if place.isEmpty then files else files.put place entry

partial def load (files : FileSystem) (path : String) : IO FileSystem := do
  try
    let real ← IO.FS.realPath path
    if ← real.isDir then
      let entries ← real.readDir
      entries.foldlM (fun files entry => load files (path ++ "/" ++ entry.fileName))
        (addPlace files path .directory)
    else
      pure (addPlace files path (.file (← IO.FS.readFile real)))
  catch _ => pure files

/-- The path of the document that could not be read, if that is what went wrong. -/
def missingFile? : Fault → Option String
  | .unresolved document (.unreadable .notFound) =>
    some (Percent.decode (String.ofList (document.toList.drop 7)))
  | _ => none

partial def modelOf (options : Options) (files : FileSystem) : IO (Except Fault Model) := do
  match options.model files with
  | .ok model => pure (.ok model)
  | .error fault =>
    match missingFile? fault with
    | none => pure (.error fault)
    | some path =>
      let loaded ← load files path
      if loaded.entries.length = files.entries.length then pure (.error fault)
      else modelOf options loaded

def absolute (current path : String) : String := Path.absolute current path

def generate (options : Options) : IO UInt32 := do
  let current ← IO.FS.realPath "."
  let empty : FileSystem := ⟨(Path.steps current.toString).filter (!·.isEmpty), []⟩
  let start := addPlace empty current.toString .directory
  let wanted := options.sources ++ options.config.toList
  let files ← wanted.foldlM
    (fun files path => load files (absolute current.toString path)) start
  match ← modelOf options files with
  | .error fault =>
    IO.eprintln (Outcome.complaint (.failed fault))
    pure 1
  | .ok model =>
    for file in model.sourceFiles do
      let path := Model.target options.target file
      if let some parent := Path.parent? path then
        unless parent.isEmpty do IO.FS.createDirAll parent
      IO.FS.writeFile path file.contents
    pure 0

end SchemaBeans.CommandLine

def main (arguments : List String) : IO UInt32 := do
  match SchemaBeans.CommandLine.Options.ofArguments arguments with
  | .error .usage =>
    IO.eprint SchemaBeans.CommandLine.usageText
    pure 2
  | .error .information =>
    IO.print SchemaBeans.CommandLine.usageText
    pure 0
  | .ok options =>
    try SchemaBeans.CommandLine.generate options
    catch problem =>
      IO.eprintln ("Error: I/O error: " ++ toString problem)
      pure 1
