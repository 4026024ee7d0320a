/-!
Regular expressions of ECMAScript without flags, and how they match. A match moves over the text one
character at a time and hands each place it reaches on to what follows; if that fails, the next way
is tried, preferred ways first. Captured text is kept for references to it, and a repeated part
forgets what it captured in its last round.
-/

namespace SchemaBeans.Pattern

structure CharRange where
  low : Nat
  high : Nat
  outside : Bool := false
  deriving DecidableEq, Repr

def CharRange.contains (r : CharRange) (c : Char) : Bool :=
  (r.low ≤ c.toNat && c.toNat ≤ r.high) != r.outside

/-- A character belongs to a class if one of its alternatives allows it; an alternative is a list of
ranges that all have to. -/
structure CharClass where
  alternatives : List (List CharRange)
  negated : Bool := false
  deriving DecidableEq, Repr

def CharClass.contains (cls : CharClass) (c : Char) : Bool :=
  (cls.alternatives.any fun ranges => ranges.all (·.contains c)) != cls.negated

inductive Expression where
  | empty
  | char (c : Char)
  | oneOf (cls : CharClass)
  | textStart
  | textEnd
  | wordEdge (negated : Bool)
  | both (first second : Expression)
  | either (first second : Expression)
  | group (index : Nat) (body : Expression)
  | look (ahead negated : Bool) (body : Expression)
  | reference (index : Nat)
  | loop (body : Expression) (min : Nat) (max : Option Nat) (greedy : Bool)
      (firstGroup forgotten : Nat)
  deriving DecidableEq, Repr, Inhabited

/-- A place in the text: what lies before it, nearest character first, and what lies after it. -/
structure Place where
  before : List Char
  after : List Char
  captures : List (Nat × List Char)
  deriving DecidableEq, Repr

namespace Place

def step? (p : Place) (back : Bool) : Option (Char × Place) :=
  if back then
    match p.before with
    | c :: rest => some (c, { p with before := rest, after := c :: p.after })
    | [] => none
  else
    match p.after with
    | c :: rest => some (c, { p with before := c :: p.before, after := rest })
    | [] => none

def stepOver? (p : Place) (back : Bool) : List Char → Option Place
  | [] => some p
  | c :: rest =>
    match p.step? back with
    | some (d, next) => if c = d then next.stepOver? back rest else none
    | none => none

def between (a b : Place) : List Char :=
  if a.before.length ≤ b.before.length then a.after.take (b.before.length - a.before.length)
  else b.after.take (a.before.length - b.before.length)

def capture (p : Place) (index : Nat) (text : List Char) : Place :=
  { p with captures := (index, text) :: p.captures.filter (·.1 != index) }

def forget (p : Place) (first count : Nat) : Place :=
  { p with captures := p.captures.filter fun (i, _) => i < first || first + count ≤ i }

def remaining (p : Place) (back : Bool) : Nat := if back then p.before.length else p.after.length

end Place

def isWordChar (c : Char) : Bool := c.isAlphanum || c = '_'

def atWordEdge (p : Place) : Bool :=
  (p.before.head?.any isWordChar) != (p.after.head?.any isWordChar)

abbrev Next := Place → Option Place

def stepIf (back : Bool) (allowed : Char → Bool) (next : Next) (p : Place) : Option Place :=
  match p.step? back with
  | some (c, q) => if allowed c then next q else none
  | none => none

/-- Repeats a part. A round that moves nowhere does not count once the least number of rounds is
done; `fuel` bounds the rounds. -/
def rounds (part : Next → Next) (back greedy : Bool) (next : Next) :
    Nat → Nat → Option Nat → Next
  | 0, _, _, _ => none
  | fuel + 1, min, max, p =>
    if max = some 0 then next p
    else
      let again (_ : Unit) : Option Place :=
        part (fun q =>
          if min = 0 ∧ q.remaining back = p.remaining back then none
          else rounds part back greedy next fuel (min - 1) (max.map (· - 1)) q) p
      if min ≠ 0 then again ()
      else if greedy then (again ()).orElse fun _ => next p
      else (next p).orElse again

namespace Expression

/-- Matches an expression from a place on, reading to the left if `back` is set, and then `next`. -/
def run (back : Bool) : Expression → Next → Next
  | empty, next, p => next p
  | char c, next, p => stepIf back (· = c) next p
  | .oneOf cls, next, p => stepIf back cls.contains next p
  | textStart, next, p => if p.before.isEmpty then next p else none
  | textEnd, next, p => if p.after.isEmpty then next p else none
  | wordEdge negated, next, p => if atWordEdge p != negated then next p else none
  | both first second, next, p =>
    if back then run back second (run back first next) p
    else run back first (run back second next) p
  | either first second, next, p => (run back first next p).orElse fun _ => run back second next p
  | group index body, next, p =>
    run back body (fun q => next (q.capture index (Place.between p q))) p
  | look ahead negated body, next, p =>
    match run (!ahead) body some p with
    | none => if negated then next p else none
    | some found => if negated then none else next { p with captures := found.captures }
  | reference index, next, p =>
    match p.captures.lookup index with
    | some text => (p.stepOver? back (if back then text.reverse else text)).bind next
    | none => next p
  | loop body min max greedy firstGroup forgotten, next, p =>
    rounds (fun next p => run back body next (p.forget firstGroup forgotten)) back greedy next
      (min + p.remaining back + 1) min max p

def starts (before : List Char) : List Char → List Place
  | [] => [⟨before, [], []⟩]
  | c :: rest => ⟨before, c :: rest, []⟩ :: starts (c :: before) rest

def occursIn (e : Expression) (text : List Char) : Bool :=
  (starts [] text).any fun p => (run false e some p).isSome

end Expression

end SchemaBeans.Pattern
