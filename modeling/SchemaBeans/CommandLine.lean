import SchemaBeans.Run
import SchemaBeans.Settings.Decoding
/-!
The command line: schema files or directories of them, a directory for the sources, and settings
from a file that flags override. Arguments are read from left to right; an option is given at most
once, and what follows `--` is a source whatever it looks like.
-/

namespace SchemaBeans.CommandLine

inductive ValueOption where
  | target
  | package
  | config
  | annotationStyle
  deriving DecidableEq, Repr

inductive Flag where
  | builders
  | usePrimitives
  | useLongIntegers
  | useBigDecimals
  | jsr303Annotations
  | jakarta
  | noAdditionalProperties
  deriving DecidableEq, Repr

/-- What a name on the command line stands for. -/
inductive Choice where
  | value (option : ValueOption)
  | flag (flag : Flag)
  | information
  deriving DecidableEq, Repr

def longNames : List (String × Choice) := [
  ("target", .value .target),
  ("package", .value .package),
  ("config", .value .config),
  ("annotation-style", .value .annotationStyle),
  ("builders", .flag .builders),
  ("use-primitives", .flag .usePrimitives),
  ("use-long-integers", .flag .useLongIntegers),
  ("use-big-decimals", .flag .useBigDecimals),
  ("jsr303-annotations", .flag .jsr303Annotations),
  ("jakarta", .flag .jakarta),
  ("no-additional-properties", .flag .noAdditionalProperties),
  ("help", .information),
  ("version", .information)]

def shortNames : List (Char × Choice) := [
  ('t', .value .target),
  ('p', .value .package),
  ('c', .value .config),
  ('a', .value .annotationStyle),
  ('b', .flag .builders),
  ('h', .information),
  ('V', .information)]

def styleNames : List (String × AnnotationStyle) := [
  ("jackson2", .jackson2), ("gson", .gson), ("moshi", .moshi), ("none", .none)]

/-- What was given so far, sources in order. -/
structure Given where
  sources : List String := []
  values : List (ValueOption × String) := []
  flags : List Flag := []
  deriving Repr

inductive Stop where
  | usage
  | information
  deriving DecidableEq, Repr

/-- Whether a value may be given to an option: a path is not empty, a style is known. -/
def accepts : ValueOption → String → Bool
  | .target, value => !value.isEmpty
  | .config, value => !value.isEmpty
  | .package, _ => true
  | .annotationStyle, value => (styleNames.lookup value).isSome

def Given.setValue (g : Given) (option : ValueOption) (value : String) : Except Stop Given :=
  if (g.values.lookup option).isSome || !accepts option value then .error .usage
  else .ok { g with values := (option, value) :: g.values }

def Given.setFlag (g : Given) (flag : Flag) : Except Stop Given :=
  if g.flags.contains flag then .error .usage else .ok { g with flags := flag :: g.flags }

def Given.addSource (g : Given) (source : String) : Except Stop Given :=
  if source.isEmpty then .error .usage else .ok { g with sources := g.sources ++ [source] }

def looksLikeOption (argument : String) : Bool :=
  match argument.toList with
  | '-' :: _ :: _ => true
  | _ => false

/-- What an argument leaves to do: nothing, or its option takes the next argument as its value. -/
structure Read where
  given : Given
  pending : Option ValueOption := none

def readLong (g : Given) (text : List Char) : Except Stop Read :=
  let (name, attached) := match Text.cutFirst '=' text with
    | some (name, value) => (String.ofList name, some (String.ofList value))
    | none => (String.ofList text, none)
  match longNames.lookup name, attached with
  | some (.value option), some value => (g.setValue option value).map ({ given := · })
  | some (.value option), none => .ok { given := g, pending := some option }
  | some (.flag flag), none => (g.setFlag flag).map ({ given := · })
  | some .information, none => .error .information
  | _, _ => .error .usage

/-- Reads a cluster of short names. An option takes the rest as its value, less an equals sign. -/
def readShort (g : Given) : List Char → Except Stop Read
  | [] => .ok { given := g }
  | c :: rest =>
    match shortNames.lookup c with
    | some (.flag flag) =>
      match g.setFlag flag with
      | .ok g => readShort g rest
      | .error stop => .error stop
    | some .information => .error .information
    | some (.value option) =>
      match rest with
      | [] => .ok { given := g, pending := some option }
      | '=' :: value => (g.setValue option (String.ofList value)).map ({ given := · })
      | value => (g.setValue option (String.ofList value)).map ({ given := · })
    | none => .error .usage

def readArgument (g : Given) (argument : String) : Except Stop Read :=
  match argument.toList with
  | '-' :: '-' :: name => readLong g name
  | '-' :: c :: rest => readShort g (c :: rest)
  | _ => (g.addSource argument).map ({ given := · })

def readAll (g : Given) (pending : Option ValueOption) : List String → Except Stop Given
  | [] => if pending.isSome then .error .usage else .ok g
  | argument :: rest =>
    match pending with
    | some option =>
      if looksLikeOption argument then .error .usage
      else
        match g.setValue option argument with
        | .ok g => readAll g none rest
        | .error stop => .error stop
    | none =>
      if argument = "--" then rest.foldlM Given.addSource g
      else
        match readArgument g argument with
        | .ok ⟨g, pending⟩ => readAll g pending rest
        | .error stop => .error stop

structure Options where
  sources : List String
  target : String
  package : Option String
  config : Option String
  style : Option AnnotationStyle
  flags : List Flag
  deriving Repr

def Options.ofArguments (arguments : List String) : Except Stop Options := do
  let g ← readAll {} none arguments
  match g.sources, g.values.lookup .target with
  | _ :: _, some target =>
    pure
      { sources := g.sources
        target := target
        package := g.values.lookup .package
        config := g.values.lookup .config
        style := (g.values.lookup .annotationStyle).bind fun name => styleNames.lookup name
        flags := g.flags }
  | _, _ => throw .usage

def Options.override (o : Options) (s : Settings) : Settings :=
  { s with
    targetPackage := o.package.getD s.targetPackage
    annotationStyle := o.style.getD s.annotationStyle
    generateBuilders := s.generateBuilders || o.flags.contains .builders
    usePrimitives := s.usePrimitives || o.flags.contains .usePrimitives
    useLongIntegers := s.useLongIntegers || o.flags.contains .useLongIntegers
    useBigDecimals := s.useBigDecimals || o.flags.contains .useBigDecimals
    includeJsr303Annotations :=
      s.includeJsr303Annotations || o.flags.contains .jsr303Annotations
    useJakartaValidation := s.useJakartaValidation || o.flags.contains .jakarta
    includeAdditionalProperties :=
      s.includeAdditionalProperties && !o.flags.contains .noAdditionalProperties }

def Options.settings (o : Options) (files : FileSystem) : Except Fault Settings :=
  match o.config with
  | some path => (Settings.ofFile files path).map o.override
  | none => .ok (o.override {})

/-- The schema files that a source stands for: itself, or the JSON files below a directory. -/
def schemaFiles (files : FileSystem) (source : String) : List String :=
  if files.isDirectory source then
    (files.tree source).filter fun path => Path.ending? path == some "json"
  else [source]

def Options.model (o : Options) (files : FileSystem) : Except Fault Model := do
  let settings ← o.settings files
  modelOfFiles settings files (o.sources.flatMap (schemaFiles files))

inductive Outcome where
  | done
  | failed (fault : Fault)
  | usage
  deriving Repr

def Outcome.exitCode : Outcome → UInt32
  | done => 0
  | failed _ => 1
  | usage => 2

def Outcome.complaint : Outcome → String
  | failed fault => "Error: " ++ fault.message
  | _ => ""

def run (arguments : List String) : StateM FileSystem Outcome := do
  match Options.ofArguments arguments with
  | .error .usage => pure .usage
  | .error .information => pure .done
  | .ok options =>
    match options.model (← get) with
    | .error fault => pure (.failed fault)
    | .ok model =>
      match ← (model.write options.target).run with
      | .ok _ => pure .done
      | .error cause => pure (.failed (.file cause))

end SchemaBeans.CommandLine
