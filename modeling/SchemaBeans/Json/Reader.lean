import SchemaBeans.Json.Value
/-!
Reading JSON text. The grammar is the strict one: one value with blanks around it, no trailing
comma, no bare control character in a string, surrogate escapes only in pairs. Arrays and objects
nest at most 127 deep, and a number beyond the range of doubles is refused.
-/

namespace SchemaBeans.Json

inductive SyntaxFault where
  | endInValue
  | endInList
  | endInObject
  | endInString
  | expectedColon
  | expectedListEnd
  | expectedObjectEnd
  | expectedWord
  | expectedValue
  | invalidEscape
  | invalidNumber
  | numberOutOfRange
  | controlCharacter
  | keyNotString
  | loneSurrogate
  | brokenSurrogatePair
  | trailingComma
  | trailingCharacters
  | tooDeep
  deriving DecidableEq, Repr

def SyntaxFault.message : SyntaxFault → String
  | endInValue => "EOF while parsing a value"
  | endInList => "EOF while parsing a list"
  | endInObject => "EOF while parsing an object"
  | endInString => "EOF while parsing a string"
  | expectedColon => "expected `:`"
  | expectedListEnd => "expected `,` or `]`"
  | expectedObjectEnd => "expected `,` or `\x7d`"
  | expectedWord => "expected ident"
  | expectedValue => "expected value"
  | invalidEscape => "invalid escape"
  | invalidNumber => "invalid number"
  | numberOutOfRange => "number out of range"
  | controlCharacter => "control character (\\u0000-\\u001F) found while parsing a string"
  | keyNotString => "key must be a string"
  | loneSurrogate => "lone leading surrogate in hex escape"
  | brokenSurrogatePair => "unexpected end of hex escape"
  | trailingComma => "trailing comma"
  | trailingCharacters => "trailing characters"
  | tooDeep => "recursion limit exceeded"

abbrev Reading (α : Type) := Except SyntaxFault (α × List Char)

def isBlank (c : Char) : Bool := c = ' ' || c = '\n' || c = '\t' || c = '\r'

def skipBlanks (cs : List Char) : List Char := cs.dropWhile isBlank

def hexValue? (c : Char) : Option Nat :=
  if '0' ≤ c ∧ c ≤ '9' then some (c.toNat - 48)
  else if 'a' ≤ c ∧ c ≤ 'f' then some (c.toNat - 87)
  else if 'A' ≤ c ∧ c ≤ 'F' then some (c.toNat - 55)
  else none

def hex4? (a b c d : Char) : Option Nat := do
  let a ← hexValue? a
  let b ← hexValue? b
  let c ← hexValue? c
  let d ← hexValue? d
  pure (((a * 16 + b) * 16 + c) * 16 + d)

def simpleEscape? (c : Char) : Option Char :=
  [('"', '"'), ('\\', '\\'), ('/', '/'), ('b', '\x08'), ('f', '\x0c'), ('n', '\n'), ('r', '\r'),
    ('t', '\t')].lookup c

/-- Reads a string after its opening quote; `done` holds the characters so far, last one first. -/
def readString (done : List Char) : List Char → Reading String
  | [] => .error .endInString
  | '"' :: rest => .ok (String.ofList done.reverse, rest)
  | '\\' :: 'u' :: a :: b :: c :: d :: rest =>
    match hex4? a b c d with
    | none => .error .invalidEscape
    | some code =>
      if 0xDC00 ≤ code ∧ code ≤ 0xDFFF then .error .loneSurrogate
      else if 0xD800 ≤ code ∧ code ≤ 0xDBFF then
        match rest with
        | '\\' :: 'u' :: e :: f :: g :: h :: rest =>
          match hex4? e f g h with
          | none => .error .invalidEscape
          | some low =>
            if 0xDC00 ≤ low ∧ low ≤ 0xDFFF then
              let full := 0x10000 + (code - 0xD800) * 0x400 + (low - 0xDC00)
              readString (Char.ofNat full :: done) rest
            else .error .loneSurrogate
        | [] => .error .endInString
        | _ => .error .brokenSurrogatePair
      else readString (Char.ofNat code :: done) rest
  | ['\\'] => .error .endInString
  | '\\' :: c :: rest =>
    match simpleEscape? c with
    | some e => readString (e :: done) rest
    | none => .error .invalidEscape
  | c :: rest => if c.toNat < 0x20 then .error .controlCharacter else readString (c :: done) rest

def digitsOf (cs : List Char) : List Char × List Char :=
  (cs.takeWhile Char.isDigit, cs.dropWhile Char.isDigit)

def readFraction : List Char → Reading (Option (List Char))
  | '.' :: cs =>
    match digitsOf cs with
    | ([], []) => .error .endInValue
    | ([], _) => .error .invalidNumber
    | (digits, rest) => .ok (some digits, rest)
  | cs => .ok (none, cs)

def readExponent : List Char → Reading (Option Int)
  | c :: cs =>
    if c = 'e' ∨ c = 'E' then
      let (negative, body) := Binary64.signed cs
      match digitsOf body with
      | ([], []) => .error .endInValue
      | ([], _) => .error .invalidNumber
      | (digits, rest) =>
        let size : Int := Binary64.digitsValue digits
        .ok (some (if negative then -size else size), rest)
    else .ok (none, c :: cs)
  | [] => .ok (none, [])

def readNumber (negative : Bool) (cs : List Char) : Except SyntaxFault (Json × List Char) :=
  match digitsOf cs with
  | ([], []) => .error .endInValue
  | ([], _) => .error .invalidNumber
  | ('0' :: _ :: _, _) => .error .invalidNumber
  | (whole, rest) => do
    let (fraction, rest) ← (readFraction rest : Except _ _)
    let (exponent, rest) ← (readExponent rest : Except _ _)
    match JsonNumber.ofParts negative whole fraction exponent with
    | some n => pure (number n, rest)
    | none => throw .numberOutOfRange

def readWord (value : Json) : List Char → List Char → Reading Json
  | [], rest => .ok (value, rest)
  | _ :: _, [] => .error .endInValue
  | w :: ws, c :: cs => if w = c then readWord value ws cs else .error .expectedWord

mutual

/-- Reads one value with at most `depth - 1` arrays and objects inside one another. -/
def readValue (fuel depth : Nat) (cs : List Char) : Reading Json :=
  match fuel with
  | 0 => .error .tooDeep
  | fuel + 1 =>
    match skipBlanks cs with
    | [] => .error .endInValue
    | 'n' :: rest => readWord null ['u', 'l', 'l'] rest
    | 't' :: rest => readWord (bool true) ['r', 'u', 'e'] rest
    | 'f' :: rest => readWord (bool false) ['a', 'l', 's', 'e'] rest
    | '"' :: rest => (readString [] rest).map fun (s, rest) => (string s, rest)
    | '-' :: rest => readNumber true rest
    | '[' :: rest => if depth ≤ 1 then .error .tooDeep else readItems fuel (depth - 1) [] rest
    | '\x7b' :: rest => if depth ≤ 1 then .error .tooDeep else readMembers fuel (depth - 1) [] rest
    | c :: rest => if c.isDigit then readNumber false (c :: rest) else .error .expectedValue

def readItems (fuel depth : Nat) (done : List Json) (cs : List Char) : Reading Json :=
  match fuel with
  | 0 => .error .tooDeep
  | fuel + 1 =>
    let item (cs : List Char) : Reading Json :=
      match readValue fuel depth cs with
      | .error fault => .error fault
      | .ok (v, rest) => readItems fuel depth (v :: done) rest
    match skipBlanks cs with
    | [] => .error .endInList
    | ']' :: rest => .ok (array done.reverse, rest)
    | ',' :: rest =>
      if done.isEmpty then item (',' :: rest)
      else
        match skipBlanks rest with
        | [] => .error .endInValue
        | ']' :: _ => .error .trailingComma
        | next => item next
    | next => if done.isEmpty then item next else .error .expectedListEnd

def readMembers (fuel depth : Nat) (done : Members) (cs : List Char) : Reading Json :=
  match fuel with
  | 0 => .error .tooDeep
  | fuel + 1 =>
    let member (cs : List Char) : Reading Json :=
      match cs with
      | [] => .error .endInValue
      | '\x7d' :: _ => .error .trailingComma
      | '"' :: rest =>
        match readString [] rest with
        | .error fault => .error fault
        | .ok (name, rest) =>
          match skipBlanks rest with
          | [] => .error .endInObject
          | ':' :: rest =>
            match readValue fuel depth rest with
            | .error fault => .error fault
            | .ok (v, rest) => readMembers fuel depth ((name, v) :: done) rest
          | _ => .error .expectedColon
      | _ => .error .keyNotString
    match skipBlanks cs with
    | [] => .error .endInObject
    | '\x7d' :: rest => .ok (object done.reverse, rest)
    | ',' :: rest => if done.isEmpty then member (',' :: rest) else member (skipBlanks rest)
    | next => if done.isEmpty then member next else .error .expectedObjectEnd

end

/-- One more than the number of arrays and objects that may stand inside one another. -/
def depthLimit : Nat := 128

/-- Reads a document and keeps members that share a name. Every call reads a character or goes one
value down, so twice the length of the text is fuel enough. -/
def ofTextRaw? (text : String) : Except SyntaxFault Json := do
  let cs := text.toList
  let (v, rest) ← (readValue (2 * cs.length + 3) depthLimit cs : Except _ _)
  if (skipBlanks rest).isEmpty then pure v else throw .trailingCharacters

def ofText? (text : String) : Except SyntaxFault Json := (ofTextRaw? text).map unify

end SchemaBeans.Json
