import SchemaBeans.Settings.Basic
import SchemaBeans.Text.Split
import SchemaBeans.Text.Words
/-!
Java identifiers made from the names of schemas. Characters that cannot stand in an identifier
become underscores, and a leading digit or a reserved word gets an underscore before it.
-/

namespace SchemaBeans.Names

def reservedWords : List String := [
  "_", "abstract", "assert", "boolean", "break", "byte", "case", "catch", "char", "class", "const",
  "continue", "default", "do", "double", "else", "enum", "extends", "false", "final", "finally",
  "float", "for", "goto", "if", "implements", "import", "instanceof", "int", "interface", "long",
  "native", "new", "null", "package", "private", "protected", "public", "return", "short",
  "static", "strictfp", "super", "switch", "synchronized", "this", "throw", "throws",
  "transient", "true", "try", "void", "volatile", "while"]

def isReserved (name : String) : Bool := reservedWords.contains name

def recase (case : Char → List Char) : List Char → List Char
  | [] => []
  | c :: rest => case c ++ rest

def capitalize (name : String) : String := String.ofList (recase Text.upper name.toList)

def decapitalize (name : String) : String := String.ofList (recase Text.lower name.toList)

/-- Takes the delimiters out and makes the character after each of them a capital. -/
def joinWords (delimiters : List Char) (afterDelimiter : Bool) : List Char → List Char
  | [] => []
  | c :: rest =>
    if delimiters.contains c then joinWords delimiters true rest
    else (if afterDelimiter then Text.upper c else [c]) ++ joinWords delimiters false rest

/-- Underscores in the place of characters that cannot stand in an identifier. -/
def clean (text : List Char) : List Char :=
  text.map fun c => if Text.isIdentifierChar c then c else '_'

/-- A text that may start an identifier: not empty, and an underscore before a digit. -/
def guardStart : List Char → List Char
  | [] => ['_']
  | c :: rest => if c.isDigit then '_' :: c :: rest else c :: rest

def identifier (delimiters : List Char) (raw : String) : String :=
  String.ofList (guardStart (clean (joinWords delimiters false raw.toList)))

def typeName (settings : Settings) (raw : String) : String :=
  settings.classNamePrefix ++ capitalize (identifier settings.propertyWordDelimiters raw) ++
    settings.classNameSuffix

def propertyName (settings : Settings) (raw : String) : String :=
  let name := decapitalize (identifier settings.propertyWordDelimiters raw)
  if isReserved name then "_" ++ name else name

def trimUnderscores (text : List Char) : List Char :=
  ((text.dropWhile (· = '_')).reverse.dropWhile (· = '_')).reverse

def constantName (literal : String) : String :=
  match trimUnderscores (clean (Text.shouted literal.toList)) with
  | [] => "__EMPTY__"
  | c :: rest => String.ofList (if c.isDigit then '_' :: c :: rest else c :: rest)

def singularize (word : String) : String :=
  let letters := word.toList
  let small := letters.map Char.toLower
  let ends (ending : String) : Bool := ending.toList.isSuffixOf small
  let without (n : Nat) : List Char := letters.take (letters.length - n)
  if ends "ies" ∧ 3 < letters.length then String.ofList (without 3 ++ ['y'])
  else if ["sses", "shes", "ches", "xes", "zes"].any ends then String.ofList (without 2)
  else if ends "s" ∧ ["ss", "us", "is"].any ends = false then String.ofList (without 1)
  else word

end SchemaBeans.Names
