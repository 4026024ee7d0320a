import SchemaBeans.Binary64.Decimal
import SchemaBeans.Pattern.Expression
import SchemaBeans.Text.Letters
import SchemaBeans.Text.Split
/-!
Reading regular expressions. Without flags much is allowed that a stricter reading would refuse: a
brace that starts no count stands for itself, and so does an escaped character without a meaning.
-/

namespace SchemaBeans.Pattern

def point (code : Nat) : List CharRange := [⟨code, code, false⟩]

def spanOf (low high : Char) : List CharRange := [⟨low.toNat, high.toNat, false⟩]

def digitSpans : List (List CharRange) := [spanOf '0' '9']

def wordSpans : List (List CharRange) :=
  [spanOf 'a' 'z', spanOf 'A' 'Z', spanOf '0' '9', spanOf '_' '_']

def blankSpans : List (List CharRange) :=
  [[⟨0x09, 0x0D, false⟩], [⟨0x2000, 0x200A, false⟩]] ++
    [0x20, 0xA0, 0x1680, 0x2028, 0x2029, 0x202F, 0x205F, 0x3000, 0xFEFF].map point

def outsideOf (spans : List (List CharRange)) : List (List CharRange) :=
  [spans.flatten.map fun r => { r with outside := true }]

def anyButLineEnd : CharClass :=
  ⟨[[⟨0x0A, 0x0A, true⟩, ⟨0x0D, 0x0D, true⟩, ⟨0x2028, 0x2029, true⟩]], false⟩

def classEscape? : Char → Option (List (List CharRange))
  | 'd' => some digitSpans
  | 'D' => some (outsideOf digitSpans)
  | 's' => some blankSpans
  | 'S' => some (outsideOf blankSpans)
  | 'w' => some wordSpans
  | 'W' => some (outsideOf wordSpans)
  | _ => none

def hexValue? (c : Char) : Option Nat :=
  if '0' ≤ c ∧ c ≤ '9' then some (c.toNat - 48)
  else if 'a' ≤ c ∧ c ≤ 'f' then some (c.toNat - 87)
  else if 'A' ≤ c ∧ c ≤ 'F' then some (c.toNat - 55)
  else none

def hex? (value : Nat) : Nat → List Char → Option (Nat × List Char)
  | 0, rest => some (value, rest)
  | n + 1, c :: rest => (hexValue? c).bind fun d => hex? (16 * value + d) n rest
  | _, [] => none

def octalValue? (c : Char) : Option Nat :=
  if '0' ≤ c ∧ c ≤ '7' then some (c.toNat - 48) else none

def octal (value : Nat) : Nat → List Char → Nat × List Char
  | 0, rest => (value, rest)
  | _, [] => (value, [])
  | n + 1, c :: rest =>
    match octalValue? c with
    | some d => if 8 * value + d < 256 then octal (8 * value + d) n rest else (value, c :: rest)
    | none => (value, c :: rest)

def unicode? (cs : List Char) : Option (Nat × List Char) :=
  match hex? 0 4 cs with
  | none => none
  | some (high, rest) =>
    if 0xD800 ≤ high ∧ high ≤ 0xDBFF then
      match rest with
      | '\\' :: 'u' :: more =>
        match hex? 0 4 more with
        | some (low, rest') =>
          if 0xDC00 ≤ low ∧ low ≤ 0xDFFF then
            some (0x10000 + (high - 0xD800) * 0x400 + (low - 0xDC00), rest')
          else some (high, rest)
        | none => some (high, rest)
      | _ => some (high, rest)
    else some (high, rest)

def controlEscape? (c : Char) : Option Nat :=
  [('t', 9), ('n', 10), ('v', 11), ('f', 12), ('r', 13)].lookup c

/-- The code point of an escaped character, from what follows the backslash. In a class a control
escape may also name a digit or an underscore. -/
def charEscape (inClass : Bool) : List Char → Option (Nat × List Char)
  | [] => none
  | 'c' :: rest =>
    match rest with
    | letter :: after =>
      if letter.isAlpha || (inClass && isWordChar letter) then some (letter.toNat % 32, after)
      else some (0x5C, 'c' :: rest)
    | [] => some (0x5C, ['c'])
  | 'x' :: rest => (hex? 0 2 rest).or (some ('x'.toNat, rest))
  | 'u' :: rest => (unicode? rest).or (some ('u'.toNat, rest))
  | c :: rest =>
    match controlEscape? c, octalValue? c with
    | some code, _ => some (code, rest)
    | none, some _ => some (octal 0 3 (c :: rest))
    | none, none => some (c.toNat, rest)

/-- A member of a bracketed class: one code point, or a class of its own. -/
inductive ClassAtom where
  | code (value : Nat)
  | spans (alternatives : List (List CharRange))

def ClassAtom.alternatives : ClassAtom → List (List CharRange)
  | code value => [point value]
  | spans alternatives => alternatives

def classAtom? : List Char → Option (ClassAtom × List Char)
  | [] => none
  | '\\' :: 'b' :: rest => some (.code 8, rest)
  | '\\' :: c :: rest =>
    match classEscape? c with
    | some spans => some (.spans spans, rest)
    | none => (charEscape true (c :: rest)).map fun (code, rest) => (.code code, rest)
  | ['\\'] => none
  | c :: rest => some (.code c.toNat, rest)

/-- Reads the members of a class up to its closing bracket; `fuel` bounds their number. -/
def classMembers? : Nat → List (List CharRange) → List Char →
    Option (List (List CharRange) × List Char)
  | 0, _, _ => none
  | _, _, [] => none
  | _, done, ']' :: rest => some (done, rest)
  | fuel + 1, done, cs => do
    let (first, rest) ← classAtom? cs
    match rest with
    | '-' :: ']' :: rest => pure (done ++ first.alternatives ++ [point '-'.toNat], rest)
    | '-' :: after =>
      let (second, rest) ← classAtom? after
      match first, second with
      | .code low, .code high =>
        if high < low then none
        else classMembers? fuel (done ++ [[⟨low, high, false⟩]]) rest
      | _, _ =>
        let all := first.alternatives ++ [point '-'.toNat] ++ second.alternatives
        classMembers? fuel (done ++ all) rest
    | _ => classMembers? fuel (done ++ first.alternatives) rest

def bracketed? (cs : List Char) : Option (Expression × List Char) :=
  let (negated, body) := match cs with
    | '^' :: rest => (true, rest)
    | _ => (false, cs)
  (classMembers? (body.length + 1) [] body).map fun (alternatives, rest) =>
    (.oneOf ⟨alternatives, negated⟩, rest)

structure Count where
  min : Nat
  max : Option Nat
  greedy : Bool

def number? (cs : List Char) : Option (Nat × List Char) :=
  let digits := cs.takeWhile Char.isDigit
  if digits.isEmpty then none else some (Binary64.digitsValue digits, cs.dropWhile Char.isDigit)

def braces? (cs : List Char) : Option (Nat × Option Nat × List Char) := do
  let (min, rest) ← number? cs
  match rest with
  | '\x7d' :: rest => pure (min, some min, rest)
  | ',' :: '\x7d' :: rest => pure (min, none, rest)
  | ',' :: rest =>
    let (max, rest) ← number? rest
    match rest with
    | '\x7d' :: rest => pure (min, some max, rest)
    | _ => none
  | _ => none

def bareCount? : List Char → Option (Nat × Option Nat × List Char)
  | '*' :: rest => some (0, none, rest)
  | '+' :: rest => some (1, none, rest)
  | '?' :: rest => some (0, some 1, rest)
  | '\x7b' :: rest => braces? rest
  | _ => none

def count? (cs : List Char) : Option (Count × List Char) :=
  (bareCount? cs).map fun (min, max, rest) =>
    match rest with
    | '?' :: rest => (⟨min, max, false⟩, rest)
    | _ => (⟨min, max, true⟩, rest)

def groupName? (cs : List Char) : Option (String × List Char) :=
  let isPart (c : Char) : Bool := Text.isWordChar c || c = '_' || c = '$'
  let name := cs.takeWhile isPart
  match name, cs.dropWhile isPart with
  | c :: _, '>' :: rest => if c.isDigit then none else some (String.ofList name, rest)
  | _, _ => none

def skipClass : List Char → List Char
  | '\\' :: _ :: rest => skipClass rest
  | ']' :: rest => rest
  | _ :: rest => skipClass rest
  | [] => []

/-- The names of the capturing groups in order, none for a group without a name; `fuel` bounds the
number of steps. -/
def groupsIn : Nat → List Char → List (Option String)
  | 0, _ => []
  | _, [] => []
  | fuel + 1, '\\' :: _ :: rest => groupsIn fuel rest
  | fuel + 1, '[' :: rest => groupsIn fuel (skipClass rest)
  | fuel + 1, '(' :: '?' :: '<' :: rest =>
    match rest with
    | '=' :: _ | '!' :: _ => groupsIn fuel rest
    | _ => (groupName? rest).map (·.1) :: groupsIn fuel rest
  | fuel + 1, '(' :: '?' :: rest => groupsIn fuel rest
  | fuel + 1, '(' :: rest => none :: groupsIn fuel rest
  | fuel + 1, _ :: rest => groupsIn fuel rest

/-- What is left to read, and how many groups have been opened. -/
structure Cursor where
  rest : List Char
  opened : Nat

/-- An expression, and whether a count may follow it. -/
structure Atom where
  expression : Expression
  countable : Bool := true

def charOf (code : Nat) : Expression :=
  if code.isValidChar then .char (Char.ofNat code) else .oneOf ⟨[], false⟩

/-- What a backslash and the characters after it stand for, in a pattern with the given groups. -/
def escape? (groups : List (Option String)) (cs : List Char) : Option (Atom × List Char) :=
  match cs with
  | [] => none
  | 'b' :: rest => some (⟨.wordEdge false, false⟩, rest)
  | 'B' :: rest => some (⟨.wordEdge true, false⟩, rest)
  | 'k' :: rest =>
    if groups.any (·.isSome) then
      match rest with
      | '<' :: rest => do
        let (name, rest) ← groupName? rest
        let index ← groups.findIdx? (· == some name)
        pure (⟨.reference (index + 1), true⟩, rest)
      | _ => none
    else some (⟨.char 'k', true⟩, rest)
  | c :: rest =>
    match classEscape? c with
    | some spans => some (⟨.oneOf ⟨spans, false⟩, true⟩, rest)
    | none =>
      let literal := (charEscape false cs).map fun (code, rest) => (⟨charOf code, true⟩, rest)
      match number? cs with
      | some (n, after) =>
        if c ≠ '0' ∧ n ≤ groups.length then some (⟨.reference n, true⟩, after) else literal
      | none => literal

mutual

def alternatives? (groups : List (Option String)) : Nat → Cursor → Option (Expression × Cursor)
  | 0, _ => none
  | fuel + 1, cursor => do
    let (first, cursor) ← sequence? groups fuel cursor
    match cursor.rest with
    | '|' :: rest =>
      let (second, cursor) ← alternatives? groups fuel { cursor with rest := rest }
      pure (.either first second, cursor)
    | _ => pure (first, cursor)

def sequence? (groups : List (Option String)) : Nat → Cursor → Option (Expression × Cursor)
  | 0, _ => none
  | fuel + 1, cursor =>
    match cursor.rest with
    | [] | '|' :: _ | ')' :: _ => some (.empty, cursor)
    | _ => do
      let (first, cursor) ← counted? groups fuel cursor
      let (second, cursor) ← sequence? groups fuel cursor
      pure (.both first second, cursor)

def counted? (groups : List (Option String)) : Nat → Cursor → Option (Expression × Cursor)
  | 0, _ => none
  | fuel + 1, cursor => do
    let (atom, after) ← atom? groups fuel cursor
    match count? after.rest with
    | none => pure (atom.expression, after)
    | some (count, rest) =>
      if atom.countable = false then none
      else if count.max.any (· < count.min) then none
      else
        let inside := after.opened - cursor.opened
        pure (.loop atom.expression count.min count.max count.greedy (cursor.opened + 1) inside,
          { after with rest := rest })

def atom? (groups : List (Option String)) : Nat → Cursor → Option (Atom × Cursor)
  | 0, _ => none
  | fuel + 1, cursor =>
    let enclosed (rest : List Char) (opened : Nat) : Option (Expression × Cursor) := do
      let (body, cursor) ← alternatives? groups fuel ⟨rest, opened⟩
      match cursor.rest with
      | ')' :: rest => pure (body, { cursor with rest := rest })
      | _ => none
    let simple (e : Expression) (countable : Bool) (rest : List Char) : Option (Atom × Cursor) :=
      some (⟨e, countable⟩, { cursor with rest := rest })
    let look (ahead negated : Bool) (rest : List Char) : Option (Atom × Cursor) := do
      let (body, cursor) ← enclosed rest cursor.opened
      pure (⟨.look ahead negated body, ahead⟩, cursor)
    let group (rest : List Char) : Option (Atom × Cursor) := do
      let (body, after) ← enclosed rest (cursor.opened + 1)
      pure (⟨.group (cursor.opened + 1) body, true⟩, after)
    match cursor.rest with
    | [] => none
    | '^' :: rest => simple .textStart false rest
    | '$' :: rest => simple .textEnd false rest
    | '.' :: rest => simple (.oneOf anyButLineEnd) true rest
    | '\\' :: rest => do
      let (atom, rest) ← escape? groups rest
      pure (atom, { cursor with rest := rest })
    | '[' :: rest => do
      let (e, rest) ← bracketed? rest
      simple e true rest
    | '(' :: '?' :: '=' :: rest => look true false rest
    | '(' :: '?' :: '!' :: rest => look true true rest
    | '(' :: '?' :: '<' :: '=' :: rest => look false false rest
    | '(' :: '?' :: '<' :: '!' :: rest => look false true rest
    | '(' :: '?' :: ':' :: rest => do
      let (body, cursor) ← enclosed rest cursor.opened
      pure (⟨body, true⟩, cursor)
    | '(' :: '?' :: '<' :: rest => do
      let (_, rest) ← groupName? rest
      group rest
    | '(' :: '?' :: _ => none
    | '(' :: rest => group rest
    | '*' :: _ | '+' :: _ | '?' :: _ => none
    | '\x7b' :: rest => if (braces? rest).isSome then none else simple (.char '\x7b') true rest
    | c :: rest => simple (.char c) true rest

end

def namesDiffer (groups : List (Option String)) : Bool := decide (groups.filterMap id).Nodup

def Expression.ofText? (text : List Char) : Option Expression :=
  let fuel := 4 * text.length + 4
  let groups := groupsIn fuel text
  if namesDiffer groups then
    match alternatives? groups fuel ⟨text, 0⟩ with
    | some (e, ⟨[], _⟩) => some e
    | _ => none
  else none

end SchemaBeans.Pattern
