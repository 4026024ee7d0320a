import SchemaBeans.Generation.Draft
import SchemaBeans.Json.Merge
/-!
The schema that an `allOf` stands for: its members in order and then its own keywords, merged into
one value at a location of its own. A member reached by reference that carries a discriminator is
not merged; the first one becomes what the result extends, so that the result joins that family
instead of declaring one.
-/

namespace SchemaBeans.Drafting

structure AllOf where
  merged : Json
  settled : Bool
  parent : Option Location
  deriving Repr

/-- A schema without the keywords that a member reached by reference does not pass on. -/
def withoutFamily : Json → Json
  | .object members =>
    .object (Json.Members.remove (Json.Members.remove members "discriminator")
      "deserializationClassProperty")
  | other => other

def ownContent : Json → Json
  | .object members => .object (Json.Members.remove members "allOf")
  | other => other

def addMember (ctx : Context) (merge : NodeId → Drafting NodeId) (id : NodeId) (sofar : AllOf)
    (index : Nat) : Drafting AllOf := do
  let member ← child ctx id ["allOf", toString index]
  let target ← node member.id
  if member.byReference && !sofar.settled && target.keywords.family.isSome then
    return { sofar with settled := true, parent := some target.location }
  let memberId ← if target.shape = .allOf then merge member.id else pure member.id
  let part ← node memberId
  let content ← (part.content.anchor part.location.document : Except Fault Json)
  let content := if member.byReference then withoutFamily content else content
  pure { sofar with merged := sofar.merged.merge content }

def extended (parent : Option Location) : Json → Json
  | .object members =>
    match parent with
    | some place =>
      .object (Json.Members.put members "extends" (.object [("$ref", .string place.text)]))
    | none => .object members
  | other => other

/-- Makes the schema of an `allOf`; `fuel` bounds how deep such schemas stand in one another. A
schema that is met again among its own members is refused. -/
def mergeAllOf (ctx : Context) : Nat → NodeId → Drafting NodeId
  | 0, _ => throw .endless
  | fuel + 1, id => do
    let schema ← node id
    if (← get).merging.contains id then
      throw (.unsupported schema.location .allOfIncludesItself)
    let own := ownContent schema.content
    let count := (schema.keywords.allOf.getD []).length
    modify fun draft => { draft with merging := id :: draft.merging }
    let start : AllOf := ⟨.object [], (own.member? "extends").isSome, none⟩
    let all ← (List.range count).foldlM (addMember ctx (mergeAllOf ctx fuel) id) start
    modify fun draft => { draft with merging := draft.merging.tail }
    let own ← (own.anchor schema.location.document : Except Fault Json)
    let merged := (extended all.parent all.merged).merge own
    inStore (Store.synthesize ctx.files (schema.location.below ["allOf"]) id merged)

end SchemaBeans.Drafting
