import SchemaBeans.Text.Split
/-!
Paths as text. A path is absolute if it starts with a slash; repeated slashes and `.` steps carry no
meaning, while `..` steps are kept, since what they lead to depends on the directories.
-/

namespace SchemaBeans.Path

def isAbsolute (path : String) : Bool := path.toList.head? == some '/'

def steps (path : String) : List String := (Text.pieces '/' path.toList).map String.ofList

inductive Component where
  | root
  | here
  | up
  | name (text : String)
  deriving DecidableEq, Repr

def ofStep (step : String) : Option Component :=
  if step = "" ∨ step = "." then none
  else if step = ".." then some .up
  else some (.name step)

def components (path : String) : List Component :=
  let named := (steps path).filterMap ofStep
  if isAbsolute path then .root :: named
  else if (steps path).head? = some "." then .here :: named
  else named

def Component.rank : Component → Nat × String
  | root => (0, "")
  | here => (1, "")
  | up => (2, "")
  | name text => (3, text)

def Component.le (a b : Component) : Bool :=
  a.rank.1 < b.rank.1 || (a.rank.1 == b.rank.1 && decide (a.rank.2 ≤ b.rank.2))

def componentsLe : List Component → List Component → Bool
  | [], _ => true
  | _ :: _, [] => false
  | a :: as, b :: bs => if a = b then componentsLe as bs else a.le b

def le (a b : String) : Bool := componentsLe (components a) (components b)

def join (base path : String) : String :=
  if isAbsolute path then path
  else if base.isEmpty || base.toList.getLast? == some '/' then base ++ path
  else base ++ "/" ++ path

def trimmed (reversed : List Char) : List Char :=
  match reversed with
  | '/' :: rest => if rest.isEmpty then ['/'] else trimmed rest
  | '.' :: '/' :: rest => if rest.isEmpty then ['/'] else trimmed rest
  | other => other

/-- The directory of a path, empty for a bare name; the root and the empty path have none. -/
def parent? (path : String) : Option String :=
  match (components path).getLast? with
  | none | some .root => none
  | _ =>
    let own := (trimmed path.toList.reverse).dropWhile (· ≠ '/')
    match own with
    | [] => some ""
    | ['/'] => some "/"
    | '/' :: rest => some (String.ofList (trimmed rest).reverse)
    | other => some (String.ofList other.reverse)

def ofComponent : Component → String
  | .root => "/"
  | .here => "."
  | .up => ".."
  | .name text => text

/-- The path seen from the root when `base` is the current directory, without idle steps; a slash at
the end stays. A path that starts with exactly two slashes keeps both. -/
def absolute (base path : String) : String :=
  let named := (steps path).filterMap ofStep |>.map ofComponent
  let start :=
    if isAbsolute path then
      if path.toList.take 2 = ['/', '/'] ∧ path.toList.take 3 ≠ ['/', '/', '/'] then "//" else "/"
    else base
  let full := named.foldl join start
  if path.toList.getLast? = some '/' then
    if full.toList.getLast? = some '/' then full else full ++ "/"
  else full

def fileName? (path : String) : Option String :=
  match (components path).getLast? with
  | some (.name text) => some text
  | _ => none

/-- What follows the last dot of the file name; a name that only starts with a dot has no ending. -/
def ending? (path : String) : Option String := do
  let (before, after) ← Text.cutLast '.' (← fileName? path).toList
  if before.isEmpty then none else some (String.ofList after)

end SchemaBeans.Path
