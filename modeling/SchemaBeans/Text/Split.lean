/-!
Cutting text at separators. A piece never holds the separator it was cut at, and the pieces put
together again with the separator between them give the text back.
-/

namespace SchemaBeans.Text

def pieces (sep : Char) : List Char → List (List Char)
  | [] => [[]]
  | c :: cs =>
    if c = sep then [] :: pieces sep cs
    else
      match pieces sep cs with
      | [] => [[c]]
      | piece :: others => (c :: piece) :: others

def join (sep : List Char) : List (List Char) → List Char
  | [] => []
  | [piece] => piece
  | piece :: others => piece ++ sep ++ join sep others

theorem pieces_ne_nil (sep : Char) (cs : List Char) : pieces sep cs ≠ [] := by
  cases cs with
  | nil => simp [pieces]
  | cons c cs =>
    by_cases h : c = sep
    · simp [pieces, h]
    · cases hp : pieces sep cs <;> simp [pieces, h, hp]

theorem join_pieces (sep : Char) (cs : List Char) : join [sep] (pieces sep cs) = cs := by
  induction cs with
  | nil => simp [pieces, join]
  | cons c cs ih =>
    cases hp : pieces sep cs with
    | nil => exact absurd hp (pieces_ne_nil sep cs)
    | cons piece others =>
      rw [hp] at ih
      by_cases h : c = sep
      · simp [pieces, h, hp, join, ih]
      · cases others with
        | nil => simp_all [pieces, join]
        | cons p ps => simp_all [pieces, join]

def cutFirst (sep : Char) : List Char → Option (List Char × List Char)
  | [] => none
  | c :: cs =>
    if c = sep then some ([], cs)
    else (cutFirst sep cs).map fun (before, after) => (c :: before, after)

def cutLast (sep : Char) : List Char → Option (List Char × List Char)
  | [] => none
  | c :: cs =>
    match cutLast sep cs with
    | some (before, after) => some (c :: before, after)
    | none => if c = sep then some ([], cs) else none

/-- Puts `new` in the place of every `a` directly followed by `b`, from left to right. -/
def replacePair (a b : Char) (new : List Char) : List Char → List Char
  | x :: y :: rest =>
    if x = a ∧ y = b then new ++ replacePair a b new rest
    else x :: replacePair a b new (y :: rest)
  | rest => rest

def dropEnding? (ending text : List Char) : Option (List Char) :=
  if ending.isSuffixOf text then some (text.take (text.length - ending.length)) else none

/-- The lines of a text. A line break is a line feed, or a carriage return and a line feed; the last
line needs none. -/
def lines (text : List Char) : List (List Char) :=
  let cut := pieces '\n' text
  let ended := cut.dropLast.map fun line => (dropEnding? ['\r'] line).getD line
  match cut.getLast? with
  | some [] | none => ended
  | some last => ended ++ [last]

def isWhite (c : Char) : Bool :=
  let code := c.toNat
  (0x09 ≤ code && code ≤ 0x0D) || (0x2000 ≤ code && code ≤ 0x200A) ||
    [0x20, 0x85, 0xA0, 0x1680, 0x2028, 0x2029, 0x202F, 0x205F, 0x3000].contains code

def trimStart (text : List Char) : List Char := text.dropWhile isWhite

def trimEnd (text : List Char) : List Char := (text.reverse.dropWhile isWhite).reverse

def trim (text : List Char) : List Char := trimEnd (trimStart text)

/-- Both cases of the Latin alphabet, digits, and the two signs that may stand in an identifier. -/
def isIdentifierChar (c : Char) : Bool := c.isAlphanum || c = '_' || c = '$'

end SchemaBeans.Text
