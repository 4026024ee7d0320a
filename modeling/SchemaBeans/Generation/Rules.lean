import SchemaBeans.Generation.AllOf
import SchemaBeans.Generation.Constraints
/-!
The rules that turn a schema into a type, one for each shape. A type is declared before its members
are generated, so a schema that refers back to itself finds its type waiting. Each rule takes the
generation of other schemas as a parameter; the last definitions tie the knot.
-/

namespace SchemaBeans.Drafting

abbrev Rule := Request → NodeId → Drafting TypeRef

/-- The request for a schema below another one. What is reached by reference has the name of its
location and a source file of its own. -/
def requestFor (found : Store.Child) (name : String) (placement : Placement) :
    Drafting Request := do
  if found.byReference then
    pure ⟨(← node found.id).location.name, .topLevel⟩
  else pure ⟨name, placement⟩

def inIntRange (n : JsonNumber) : Bool :=
  let x := n.toBinary64
  Binary64.le (.ofInt (-2147483648)) x && Binary64.le x (.ofInt 2147483647)

def formatType : String → TypeRef
  | "date-time" => .library "java.util.Date"
  | "uri" => .library "java.net.URI"
  | "uuid" => .library "java.util.UUID"
  | "regex" => .library "java.util.regex.Pattern"
  | "utc-millisec" => .scalar .long true
  | _ => .string

def stringType (k : Keywords) : TypeRef :=
  match k.format with
  | some format => formatType format
  | none => .string

def integerType (settings : Settings) (k : Keywords) : TypeRef :=
  let outside (bound : Option JsonNumber) : Bool := bound.any fun n => !inIntRange n
  let wide := settings.useLongIntegers || outside k.minimum || outside k.maximum
  .scalar (if wide then .long else .integer) settings.usePrimitives

def numberType (settings : Settings) : TypeRef :=
  if settings.useBigDecimals then .library "java.math.BigDecimal"
  else .scalar (if settings.useDoubleNumbers then .double else .float) settings.usePrimitives

def primitiveType (settings : Settings) (k : Keywords) : Primitive → TypeRef
  | .string => stringType k
  | .integer => integerType settings k
  | .number => numberType settings
  | .boolean => .scalar .boolean settings.usePrimitives
  | .null => .any

def enumValueType (settings : Settings) (k : Keywords) : TypeRef :=
  let wide := (k.enumeration.getD []).any fun v => v.number?.any fun n => !inIntRange n
  match k.effectiveType? with
  | some "integer" => .scalar (if settings.useLongIntegers || wide then .long else .integer) false
  | some "number" => .scalar .double false
  | some "boolean" => .scalar .boolean false
  | _ => .string

def enumLiterals (k : Keywords) : List Json := (k.enumeration.getD []).filter (!·.isNull)

def literalName (custom : List String) (index : Nat) (literal : Json) : String :=
  match custom[index]? with
  | some name =>
    if (Text.trim name.toList).isEmpty then Names.constantName literal.plainText else name
  | none => Names.constantName literal.plainText

/-- Names the literals in order; two may not have one name. -/
def nameLiterals (custom : List String) (done : List EnumConstant) :
    List Json → Except Unsupported (List EnumConstant)
  | [] => .ok done
  | literal :: rest =>
    let name := literalName custom done.length literal
    match done.find? (·.name == name) with
    | some first => .error (.constantClash first.value literal name)
    | none => nameLiterals custom (done ++ [⟨name, literal⟩]) rest

def enumRule (ctx : Context) : Rule := fun request id => do
  match ← declare ctx request id .enum with
  | .existing type => pure (.generated type)
  | .created type =>
    let schema ← node id
    let k := schema.keywords
    match nameLiterals (k.javaEnumNames.getD []) [] (enumLiterals k) with
    | .error reason => throw (.unsupported schema.location reason)
    | .ok constants =>
      update type fun d =>
        { d with constants := constants, enumValueType := enumValueType ctx.settings k }
      pure (.generated type)

/-- Generates what a class extends. -/
def attachSuperclass (ctx : Context) (rule : Rule) (type : TypeId) (id : NodeId) (name : String) :
    Drafting Unit := do
  let parent ← child ctx id ["extends"]
  let request ← requestFor parent (name ++ "Parent") .topLevel
  let supertype ← rule request parent.id
  let place := (← node id).location
  match supertype with
  | .generated parentType =>
    let graph := (← get).graph
    if (graph.get parentType).kind ≠ .bean then throw (.unsupported place .extendsNoObject)
    if graph.inherits parentType type then throw (.unsupported place .circularExtends)
  | .library _ => pure ()
  | _ => throw (.unsupported place .extendsNoObject)
  update type fun d => { d with supertype := some supertype }

def addProperty (ctx : Context) (rule : Rule) (type : TypeId) (id : NodeId) (required : List String)
    (key : String) : Drafting Unit := do
  let found ← child ctx id ["properties", key]
  let k := (← node found.id).keywords
  let request ← requestFor found key (.inside type)
  let fieldType ← rule request found.id
  let name := Names.propertyName ctx.settings (k.javaName.getD key)
  let owner ← decl type
  match owner.property? name with
  | some first => throw (.nameConflict (owner.name ++ "." ++ name) first.key key)
  | none =>
    let property : Property :=
      { key := key, name := name, type := fieldType,
        required := required.contains key || k.requiredFlag, title := k.title,
        description := k.description, constraints := .ofKeywords k, default := k.default }
    update type fun d => { d with properties := d.properties ++ [property] }

def attachAdditionalProperties (ctx : Context) (rule : Rule) (type : TypeId) (id : NodeId)
    (name : String) (allowed : Option Json) : Drafting Unit := do
  if ctx.settings.additionalPropertiesEnabled = false then return
  let set (value : TypeRef) : Drafting Unit :=
    update type fun d => { d with additionalProperties := some value }
  match allowed with
  | some (.bool false) => pure ()
  | none | some (.bool true) | some (.object []) => set .any
  | some _ =>
    let found ← child ctx id ["additionalProperties"]
    let request ← requestFor found (name ++ "Property") (.inside type)
    set (← rule request found.id)

def familyChild (ctx : Context) (rule : Rule) (id : NodeId) :
    ChildDeclaration → Drafting (ChildType × Option String)
  | ⟨.className name, tag⟩ => pure (.named name, tag)
  | ⟨.reference text, tag⟩ => do
    let target ← inStore (Store.resolveReference ctx.files id text)
    let type ← rule ⟨(← node target).location.name, .topLevel⟩ target
    pure (.resolved type, tag)

def declareFamily (ctx : Context) (rule : Rule) (type : TypeId) (id : NodeId) (metadata : Json) :
    Drafting Unit := do
  let place := (← node id).location
  match Discriminator.ofJson ctx.settings.defaultDiscriminatorId metadata with
  | .error reason => throw (.discriminator place reason)
  | .ok d =>
    let children ← d.children.mapM (familyChild ctx rule id)
    let family : Family := ⟨type, place, d.inclusion, d.identification, d.property, children⟩
    modify fun draft => { draft with families := draft.families ++ [family] }

/-- Fills a declared class: what it extends, its properties, its extension map and its family. -/
def populate (ctx : Context) (rule : Rule) (type : TypeId) (id : NodeId) (name : String) :
    Drafting Unit := do
  let k := (← node id).keywords
  if k.superclass.isSome then attachSuperclass ctx rule type id name
  (k.properties.getD []).forM fun (key, _) => addProperty ctx rule type id k.requiredKeys key
  attachAdditionalProperties ctx rule type id name k.additionalProperties
  match k.family with
  | some metadata => declareFamily ctx rule type id metadata
  | none => pure ()

def objectRule (ctx : Context) (rule : Rule) : Rule := fun request id => do
  match ← declare ctx request id .bean with
  | .existing type => pure (.generated type)
  | .created type =>
    populate ctx rule type id request.name
    pure (.generated type)

def arrayRule (ctx : Context) (rule : Rule) : Rule := fun request id => do
  let k := (← node id).keywords
  let element ← match k.items with
    | none | some (.array _) => pure .any
    | some _ =>
      let found ← child ctx id ["items"]
      let request ← requestFor found (Names.singularize request.name) request.placement
      rule request found.id
  pure (if k.uniqueItems = some true then .set element else .list element)

def branchList (k : Keywords) : String × Nat :=
  match k.oneOf, k.anyOf with
  | some branches, _ => ("oneOf", branches.length)
  | none, some branches => ("anyOf", branches.length)
  | none, none => ("oneOf", 0)

def branches (ctx : Context) (id : NodeId) (keyword : String) (count : Nat) :
    Drafting (List Store.Child) := do
  let all ← (List.range count).mapM fun i => child ctx id [keyword, toString i]
  all.filterM fun branch => do pure ((← node branch.id).shape ≠ .primitive .null)

def effectiveShape (ctx : Context) (fuel : Nat) (id : NodeId) : Drafting Shape := do
  let shape := (← node id).shape
  if shape = .allOf then
    let merged ← mergeAllOf ctx fuel id
    pure (← node merged).shape
  else pure shape

def branchRule (rule : Rule) (request : Request) (branch : Store.Child) (name : String) :
    Drafting TypeRef := do
  rule (← requestFor branch name request.placement) branch.id

def branchName (request : Request) (index : Nat) : String :=
  request.name ++ "Option" ++ toString index

def collapse (rule : Rule) (request : Request) (branches : List Store.Child) :
    Drafting TypeRef := do
  let types ← branches.zipIdx.mapM fun (branch, index) =>
    branchRule rule request branch (branchName request index)
  match types with
  | first :: others => pure (if others.all (· == first) then first else .any)
  | [] => pure .any

/-- Makes a branch a subtype of the type of its union. A branch that extends another class already,
or is itself extended by the union, stays as it is. -/
def linkBranch (graph : TypeGraph) (marker : TypeId) (kind : TypeKind) (child : TypeId) :
    TypeGraph :=
  if child = marker then graph
  else
    let registered (graph : TypeGraph) : TypeGraph :=
      graph.update marker fun d => { d with subtypes := Family.addOnce child d.subtypes }
    if kind = .interface then
      registered
        (graph.update child fun d => { d with interfaces := Family.addOnce marker d.interfaces })
    else if graph.inherits marker child then graph
    else
      match (graph.get child).supertype with
      | none =>
        registered (graph.update child fun d => { d with supertype := some (.generated marker) })
      | some supertype => if supertype = .generated marker then registered graph else graph

def addBranch (rule : Rule) (request : Request) (marker : TypeId) (kind : TypeKind)
    (branch : Store.Child × Nat) : Drafting Unit := do
  let type ← branchRule rule request branch.1 (branchName request branch.2)
  match type with
  | .generated child =>
    modify fun draft => { draft with graph := linkBranch draft.graph marker kind child }
  | _ => pure ()

/-- Branches that are all objects get a common supertype: a class if the union has properties of its
own, or an interface. A single branch, and branches of other shapes, get none. -/
def unionRule (ctx : Context) (fuel : Nat) (rule : Rule) : Rule := fun request id => do
  let k := (← node id).keywords
  let (keyword, count) := branchList k
  let branches ← branches ctx id keyword count
  let shapes ← branches.mapM fun branch => effectiveShape ctx fuel branch.id
  let allObjects := !branches.isEmpty && shapes.all (· == .object)
  match branches, k.hasProperties || k.family.isSome with
  | [only], false => branchRule rule request only request.name
  | _, _ =>
    if allObjects = false then collapse rule request branches
    else
      let kind : TypeKind := if k.hasProperties then .bean else .interface
      match ← declare ctx request id kind with
      | .existing type => pure (.generated type)
      | .created marker =>
        if kind = .bean then populate ctx rule marker id request.name
        else
          match k.family with
          | some metadata => declareFamily ctx rule marker id metadata
          | none => pure ()
        branches.zipIdx.forM (addBranch rule request marker kind)
        pure (.generated marker)

def shapeRule (ctx : Context) (fuel : Nat) (rule : Rule) (shape : Shape) : Rule :=
  match shape with
  | .allOf => fun request id => do rule request (← mergeAllOf ctx fuel id)
  | .union => unionRule ctx fuel rule
  | .enumeration => enumRule ctx
  | .object => objectRule ctx rule
  | .array => arrayRule ctx rule
  | .primitive type => fun _ id => do
    pure (primitiveType ctx.settings (← node id).keywords type)
  | .any => fun _ _ => pure .any

def mayNameLibrary : Shape → Bool
  | .primitive _ | .array | .any => true
  | _ => false

def dispatchWith (ctx : Context) (fuel : Nat) (rule : Rule) : Rule := fun request id => do
  let schema ← node id
  match (← get).graph.typeAt? schema.location with
  | some type => pure (.generated type)
  | none =>
    match schema.keywords.existingJavaType, schema.keywords.javaType,
      mayNameLibrary schema.shape with
    | some name, _, _ => pure (.library name)
    | none, some name, true => pure (.library name)
    | _, _, _ => shapeRule ctx fuel rule schema.shape request id

/-- The type of a schema; `fuel` bounds how deep schemas are generated inside one another. -/
def dispatch (ctx : Context) : Nat → Rule
  | 0 => fun _ _ => throw .endless
  | fuel + 1 => dispatchWith ctx (fuel + 1) (dispatch ctx fuel)

/-- How deep schemas can be generated inside one another before a location repeats: at most one
level for each pair of a place to start from and a value below it. -/
def depth (ctx : Context) (draft : Draft) : Nat :=
  let places := draft.store.values ctx.files + draft.store.nodes.size + 2
  places * places

def generate (ctx : Context) (place : Location) : Drafting TypeRef := do
  let id ← inStore (Store.resolve ctx.files place)
  let name := (← node id).location.name
  dispatch ctx (depth ctx (← get)) ⟨name, .topLevel⟩ id

end SchemaBeans.Drafting
