import SchemaBeans.Json.Value
/-!
Merging one value into another. Objects take over each other's members, arrays gain the items they
lack, and anything else is replaced.
-/

namespace SchemaBeans.Json

/-- The items of an array together with those of another one that it lacks. -/
def gain (items : List Json) : List Json → List Json
  | [] => items
  | item :: rest => gain (if items.any (·.same item) then items else items ++ [item]) rest

mutual

def merge (target : Json) : Json → Json
  | object source =>
    match target with
    | object members => object (mergeMembers members source)
    | _ => object source
  | array source =>
    match target with
    | array items => array (gain items source)
    | _ => array source
  | source => source

def mergeMembers (members : Members) : Members → Members
  | [] => members
  | (name, value) :: rest =>
    let merged := match members.lookup name with
      | some old => merge old value
      | none => value
    mergeMembers (members.put name merged) rest

end

end SchemaBeans.Json
