import SchemaBeans.Json.Number
/-!
JSON values. Members of an object keep the order in which they were written; two objects are the
same when they have the same members in any order.
-/

namespace SchemaBeans

inductive Json where
  | null
  | bool (value : Bool)
  | number (value : JsonNumber)
  | string (value : String)
  | array (items : List Json)
  | object (members : List (String × Json))
  deriving Repr, Inhabited

namespace Json

abbrev Members := List (String × Json)

def member? : Json → String → Option Json
  | object members, name => members.lookup name
  | _, _ => none

def isNull : Json → Bool
  | null => true
  | _ => false

def isObject : Json → Bool
  | object _ => true
  | _ => false

def array? : Json → Option (List Json)
  | array items => some items
  | _ => none

def number? : Json → Option JsonNumber
  | number n => some n
  | _ => none

/-- Puts a value under a name: in place of the old value, or last. -/
def Members.put (members : Members) (name : String) (value : Json) : Members :=
  match members with
  | [] => [(name, value)]
  | (key, old) :: rest =>
    if key = name then (key, value) :: rest else (key, old) :: Members.put rest name value

/-- Takes a name out; the last member moves into the gap. -/
def Members.remove (members : Members) (name : String) : Members :=
  match members.findIdx? (·.1 == name), members.getLast? with
  | some i, some last => (members.set i last).dropLast
  | _, _ => members

mutual

/-- How many values a value consists of, itself included. -/
def size : Json → Nat
  | array items => 1 + sizeItems items
  | object members => 1 + sizeMembers members
  | _ => 1

def sizeItems : List Json → Nat
  | [] => 0
  | item :: rest => size item + sizeItems rest

def sizeMembers : Members → Nat
  | [] => 0
  | (_, value) :: rest => size value + sizeMembers rest

end

mutual

/-- The length of the longest string in a value; names do not count. -/
def longest : Json → Nat
  | string s => s.length
  | array items => longestItem items
  | object members => longestMember members
  | _ => 0

def longestItem : List Json → Nat
  | [] => 0
  | item :: rest => max (longest item) (longestItem rest)

def longestMember : Members → Nat
  | [] => 0
  | (_, value) :: rest => max (longest value) (longestMember rest)

end

mutual

def same : Json → Json → Bool
  | null, null => true
  | bool a, bool b => a == b
  | number a, number b => a.same b
  | string a, string b => a == b
  | array a, array b => sameItems a b
  | object a, object b => a.length == b.length && sameMembers a b
  | _, _ => false

def sameItems : List Json → List Json → Bool
  | [], [] => true
  | a :: as, b :: bs => same a b && sameItems as bs
  | _, _ => false

def sameMembers : Members → Members → Bool
  | [], _ => true
  | (name, value) :: rest, other =>
    (match other.lookup name with
    | some found => same value found
    | none => false) && sameMembers rest other

end

mutual

/-- Of members with one name, keeps the place of the first and the value of the last. -/
def unify : Json → Json
  | array items => array (unifyItems items)
  | object members => object (unifyMembers [] members)
  | other => other

def unifyItems : List Json → List Json
  | [] => []
  | item :: rest => unify item :: unifyItems rest

def unifyMembers (done : Members) : Members → Members
  | [] => done
  | (name, value) :: rest => unifyMembers (done.put name (unify value)) rest

end

theorem size_item_lt {items : List Json} {v : Json} (h : v ∈ items) :
    v.size < (array items).size := by
  have step : ∀ xs : List Json, v ∈ xs → v.size ≤ sizeItems xs := by
    intro xs
    induction xs with
    | nil => intro h; cases h
    | cons x xs ih =>
      intro h
      rw [sizeItems]
      cases h with
      | head => omega
      | tail _ h => have := ih h; omega
  have := step items h
  simp [size]
  omega

theorem size_member_lt {v w : Json} {name : String} (h : v.member? name = some w) :
    w.size < v.size := by
  have step : ∀ ms : Members, ms.lookup name = some w → w.size ≤ sizeMembers ms := by
    intro ms
    induction ms with
    | nil => intro h; simp at h
    | cons m ms ih =>
      obtain ⟨key, value⟩ := m
      intro h
      rw [sizeMembers]
      rw [List.lookup_cons] at h
      split at h
      · simp only [Option.some.injEq] at h; subst h; omega
      · have := ih h; omega
  cases v with
  | object ms => have := step ms h; simp [size]; omega
  | _ => simp [member?] at h

end Json

end SchemaBeans
