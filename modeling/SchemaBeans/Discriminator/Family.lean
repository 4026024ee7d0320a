import SchemaBeans.Discriminator.Declaration
/-!
Linking the families that discriminators declare, once all types exist. Every declared child becomes
a subtype of its parent; without declared children the subtypes that the parent already has are
used.
-/

namespace SchemaBeans

inductive ChildType where
  | resolved (type : TypeRef)
  | named (name : String)
  deriving DecidableEq, Repr

structure Family where
  parent : TypeId
  place : Location
  inclusion : Inclusion
  identification : Identification
  property : String
  children : List (ChildType × Option String)
  deriving DecidableEq, Repr

namespace Family

def declaredChild (g : TypeGraph) : ChildType → Except BadDiscriminator TypeId
  | .resolved (.generated id) => .ok id
  | .resolved _ => .error .childNotGenerated
  | .named name =>
    match g.find? name with
    | some id => .ok id
    | none => .error (.unknownClass name)

/-- The subtypes a type has, and then the other types that extend it. -/
def implicitChildren (g : TypeGraph) (parent : TypeId) : List TypeId :=
  let known := (g.get parent).subtypes
  known ++ g.ids.filter fun id =>
    (g.get id).supertype == some (.generated parent) && !known.contains id

def defaultTag (g : TypeGraph) (identification : Identification) (id : TypeId) : String :=
  match identification with
  | .logicalName => (g.get id).name
  | .className => g.qualifiedName id

def addOnce (id : TypeId) (ids : List TypeId) : List TypeId :=
  if ids.contains id then ids else ids ++ [id]

def link (g : TypeGraph) (parent child : TypeId) : Except BadDiscriminator TypeGraph := do
  let childDecl := g.get child
  let kind := (g.get parent).kind
  if childDecl.kind = .enum ∧ kind = .bean then throw (.enumExtendsClass childDecl.name)
  let linked ← match kind with
    | .interface =>
      pure (g.update child fun d => { d with interfaces := addOnce parent d.interfaces })
    | .bean =>
      match childDecl.supertype with
      | none => pure (g.update child fun d => { d with supertype := some (.generated parent) })
      | some supertype =>
        if supertype = .generated parent then pure g else throw (.alreadyExtends childDecl.name)
    | .enum => throw .parentIsEnum
  pure (linked.update parent fun d => { d with subtypes := addOnce child d.subtypes })

/-- Links children with their tags, in order; the parent itself is passed over. `done` holds the
children bound so far. -/
def bindChildren (family : Family) (g : TypeGraph) (done : List (TypeId × String)) :
    List (TypeId × Option String) → Except BadDiscriminator (TypeGraph × List (TypeId × String))
  | [] => .ok (g, done)
  | (id, declaredTag) :: rest =>
    if id = family.parent then bindChildren family g done rest
    else do
      let tag := declaredTag.getD (defaultTag g family.identification id)
      if (done.map (·.2)).contains tag then throw (.duplicateTag tag)
      let g ← link g family.parent id
      bindChildren family g (done ++ [(id, tag)]) rest

def members (family : Family) (g : TypeGraph) :
    Except BadDiscriminator (List (TypeId × Option String)) := do
  let declared ← family.children.mapM fun (child, tag) => do pure (← declaredChild g child, tag)
  if declared.isEmpty then pure ((implicitChildren g family.parent).map (·, none))
  else pure declared

def bind (g : TypeGraph) (family : Family) : Except Fault TypeGraph :=
  let bound : Except BadDiscriminator TypeGraph := do
    let (g, children) ← bindChildren family g [] (← members family g)
    let binding : Binding := ⟨family.inclusion, family.identification, family.property, children⟩
    pure (g.update family.parent fun d => { d with binding := some binding })
  match bound with
  | .ok g => .ok g
  | .error reason => .error (.discriminator family.place reason)

def bindAll (g : TypeGraph) (families : List Family) : Except Fault TypeGraph :=
  families.foldlM bind g

end Family

end SchemaBeans
