import SchemaBeans.Decoration
import SchemaBeans.Pattern.Reader
/-!
Checking JSON instances against validation directives. A value that is missing or null breaks
nothing but `notNull`; sizes count the items of arrays, the characters of strings and the members of
objects; a pattern has to match a whole string.
-/

namespace SchemaBeans

structure Violation where
  path : String
  message : String
  deriving DecidableEq, Repr

namespace Check

/-- The number that a value stands for: its own, or the one its text spells. -/
def numeric? : Json → Option Binary64
  | .number n => some n.toBinary64
  | .string text => Binary64.ofText? (Text.trim text.toList)
  | _ => none

inductive Side where
  | lower
  | upper
  deriving DecidableEq, Repr

def breaks (side : Side) (inclusive : Bool) (actual limit : Binary64) : Bool :=
  match side, inclusive with
  | .lower, true => actual.lt limit
  | .lower, false => actual.le limit
  | .upper, true => limit.lt actual
  | .upper, false => limit.le actual

def relation : Side → Bool → String
  | .lower, true => "greater than or equal to"
  | .lower, false => "greater than"
  | .upper, true => "less than or equal to"
  | .upper, false => "less than"

/-- The message for a value beyond a bound. A value or a bound that is no number breaks nothing. -/
def bound? (side : Side) (inclusive : Bool) (bound : String) (value : Json) : Option String := do
  let actual ← numeric? value
  let limit ← Binary64.ofText? bound.toList
  if breaks side inclusive actual limit then
    some ("must be " ++ relation side inclusive ++ " " ++ bound)
  else none

def length? : Json → Option Nat
  | .array items => some items.length
  | .string text => some text.toList.length
  | .object members => some members.length
  | _ => none

def size? (min max : Option Nat) (value : Json) : Option String := do
  let length ← length? value
  if min.any (length < ·) || max.any (· < length) then
    let upper := match max with
      | some n => toString n
      | none => "unbounded"
    some ("size must be between " ++ toString (min.getD 0) ++ " and " ++ upper)
  else none

def wholeText (pattern : String) : List Char :=
  "^(?:".toList ++ pattern.toList ++ ")$".toList

def pattern? (pattern : String) : Json → Option String
  | .string text =>
    match Pattern.Expression.ofText? (wholeText pattern) with
    | some e => if e.occursIn text.toList then none else some ("must match \"" ++ pattern ++ "\"")
    | none => some ("pattern \"" ++ pattern ++ "\" does not compile")
  | _ => none

def present? (value : Json) : Directive → Option String
  | .decimalMin bound inclusive => bound? .lower inclusive bound value
  | .decimalMax bound inclusive => bound? .upper inclusive bound value
  | .size min max => size? min max value
  | .pattern pattern => pattern? pattern value
  | _ => none

def broken? (value : Option Json) (directive : Directive) : Option String :=
  match value.filter (!·.isNull) with
  | some value => present? value directive
  | none => if directive = .notNull then some "must not be null" else none

def valueViolations (directives : List Directive) (path : String) (value : Option Json) :
    List Violation :=
  (directives.filterMap (broken? value)).map (⟨path, ·⟩)

def memberPath (path key : String) : String := if path.isEmpty then key else path ++ "." ++ key

def itemPath (path : String) (index : Nat) : String := path ++ "[" ++ toString index ++ "]"

def allProperties (g : TypeGraph) (id : TypeId) : List (Target × Property) :=
  (g.lineage id).reverse.flatMap fun type =>
    (g.get type).properties.zipIdx.map fun (property, i) => (.property type i, property)

/-- The type whose members are checked in turn, for a property marked so. -/
def nestedType? (directives : List Directive) (property : Property) : Option TypeId :=
  if directives.contains .valid then property.type.target? else none

/-- Checks an instance of a type: the properties of its superclasses first, and after each property
the objects found in its value. -/
def violations (g : TypeGraph) (d : Decorations) (id : TypeId) (v : Json) (path : String) :
    List Violation :=
  (allProperties g id).flatMap fun (target, property) =>
    let directives := d.on target
    let path := memberPath path property.key
    match h : v.member? property.key with
    | none => valueViolations directives path none
    | some found =>
      valueViolations directives path (some found) ++
        match nestedType? directives property, found, h with
        | some type, .array items, h =>
          if property.type.isCollection then
            items.zipIdx.attach.flatMap fun ⟨(item, i), hi⟩ =>
              have := Json.size_member_lt h
              have : item.size < (Json.array items).size :=
                Json.size_item_lt (List.fst_mem_of_mem_zipIdx hi)
              violations g d type item (itemPath path i)
          else []
        | some type, .object members, h =>
          have := Json.size_member_lt h
          violations g d type (.object members) path
        | _, _, _ => []
termination_by v.size

end Check

end SchemaBeans
