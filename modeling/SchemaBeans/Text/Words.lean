import SchemaBeans.Text.Case
/-!
Words of a text written in camel case or with punctuation, and the form that joins them in capitals
by underscores. A word ends at a character that is neither letter nor number, where a small letter
meets a capital, and before the last capital of a run of capitals that a small letter follows.
-/

namespace SchemaBeans.Text

inductive Hump where
  | none
  | small
  | capital
  deriving DecidableEq, Repr

def Hump.after (mode : Hump) (c : Char) : Hump :=
  if isSmall c then .small else if isCapital c then .capital else mode

/-- Cuts a run of letters and numbers into words. `word` holds the current word, last letter
first. -/
def humps (mode : Hump) (word : List Char) : List Char → List (List Char)
  | [] => []
  | [c] => [(c :: word).reverse]
  | c :: next :: rest =>
    if mode.after c = .small ∧ isCapital next then
      (c :: word).reverse :: humps .none [] (next :: rest)
    else if mode = .capital ∧ isCapital c ∧ isSmall next then
      word.reverse :: humps .none [c] (next :: rest)
    else
      humps (mode.after c) (c :: word) (next :: rest)

def wordRunsOf : List Char → List (List Char)
  | [] => [[]]
  | c :: cs =>
    if isWordChar c then
      match wordRunsOf cs with
      | [] => [[c]]
      | run :: others => (c :: run) :: others
    else [] :: wordRunsOf cs

def words (text : List Char) : List (List Char) := (wordRunsOf text).flatMap (humps .none [])

def shouted (text : List Char) : List Char :=
  List.intercalate ['_'] ((words text).map (·.flatMap upper))

end SchemaBeans.Text
