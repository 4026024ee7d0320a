import SchemaBeans.Pointer
/-!
Where a schema stands: a document and a pointer into it. Two schemas are one exactly when their
locations are equal.
-/

namespace SchemaBeans

structure Location where
  document : String
  pointer : String
  deriving DecidableEq, Repr, Inhabited

namespace Location

def root (document : String) : Location := ⟨document, ""⟩

def below (l : Location) (segments : List String) : Location :=
  { l with pointer := segments.foldl Pointer.push l.pointer }

def text (l : Location) : String :=
  if l.pointer.isEmpty then l.document else l.document ++ "#" ++ l.pointer

def tail (l : Location) : Option String × Option String :=
  match ((Pointer.segments? l.pointer).getD []).reverse with
  | [] => (none, none)
  | [last] => (none, some last)
  | last :: parent :: _ => (some parent, some last)

def stem (l : Location) : String :=
  let document := l.document.toList
  let file := match Text.cutLast '/' document with
    | some (_, file) => file
    | none => document
  let file := (Text.dropEnding? ".json".toList file).getD file
  String.ofList ((Text.dropEnding? ".schema".toList file).getD file)

/-- The name of what is found here when it is reached by reference: the last segment of the pointer,
after the one before it if it is a number, or else the file name. -/
def name (l : Location) : String :=
  match l.tail with
  | (_, none) => l.stem
  | (some parent, some last) => if last.toList.all Char.isDigit then parent ++ last else last
  | (none, some last) => last

end Location

end SchemaBeans
