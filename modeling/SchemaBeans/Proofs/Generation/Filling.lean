import SchemaBeans.Proofs.Generation.Acts

/-! # Filling types

A type is declared before it is filled, so a run has types that are not complete yet: a class
that lacks properties of its schema, an enum without its literals, or the type of a union that
its branches are not linked to. What is generated meanwhile completes the types that it declares
and does not reach into those it found. -/
namespace SchemaBeans.Drafting

variable {ctx : Context} {d e : Draft} {k f base : Nat} {id : NodeId} {type : TypeId}

def propertyOf (settings : Settings) (required : List String) (key : String) (k : Keywords)
    (type : TypeRef) : Property :=
  { key := key, name := Names.propertyName settings (k.javaName.getD key), type := type,
    required := required.contains key || k.requiredFlag, title := k.title,
    description := k.description, constraints := .ofKeywords k, default := k.default }

@[simp] theorem propertyOf_key (settings : Settings) (required : List String) (key : String)
    (k : Keywords) (type : TypeRef) : (propertyOf settings required key k type).key = key := by
  simp only [propertyOf]

@[simp] theorem propertyOf_name (settings : Settings) (required : List String) (key : String)
    (k : Keywords) (type : TypeRef) : (propertyOf settings required key k type).name =
      Names.propertyName settings (k.javaName.getD key) := by
  simp only [propertyOf]

@[simp] theorem propertyOf_type (settings : Settings) (required : List String) (key : String)
    (k : Keywords) (type : TypeRef) : (propertyOf settings required key k type).type = type := by
  simp only [propertyOf]

@[simp] theorem propertyOf_required (settings : Settings) (required : List String) (key : String)
    (k : Keywords) (type : TypeRef) : (propertyOf settings required key k type).required =
      (required.contains key || k.requiredFlag) := by
  simp only [propertyOf]

/-- The property stands for the schema under the key, and its type for the type of that schema. -/
def Describes (ctx : Context) (d : Draft) (k : Nat) (id : NodeId) (key : String) (p : Property) :
    Prop :=
  ∃ found, d.store.Found id ["properties", key] found ∧
    p = propertyOf ctx.settings (d.store.node id).keywords.requiredKeys key
      (d.store.node found.id).keywords p.type ∧
    Settles ctx d k found.id p.type

def memberKeys (k : Keywords) : List String := (k.properties.getD []).map (·.1)

structure Populated (ctx : Context) (d : Draft) (k : Nat) (id : NodeId) (keys : List String)
    (properties : List Property) : Prop where
  described : List.Forall₂ (Describes ctx d k id) keys properties
  distinct : (properties.map (·.name)).Nodup

/-- The declaration says all that the schema of its place says. -/
def CompleteDecl (ctx : Context) (d : Draft) (k : Nat) (id : NodeId) (decl : TypeDecl) : Prop :=
  match decl.kind with
  | .bean => Populated ctx d k id (memberKeys (d.store.node id).keywords) decl.properties
  | .enum => decl.constants.map (·.value) = enumLiterals (d.store.node id).keywords
  | .interface => True

def Complete (ctx : Context) (d : Draft) (k : Nat) (type : TypeId) : Prop :=
  ∃ id, d.store.id? (d.graph.get type).place = some id ∧ CompleteDecl ctx d k id (d.graph.get type)

def Filled (ctx : Context) (d : Draft) (k base : Nat) : Prop :=
  ∀ type, d.graph.Has type → base ≤ type.index → Complete ctx d k type

/-- The branch is settled, and joined to the type of its union if it has another generated type. -/
def Gathers (ctx : Context) (d : Draft) (k : Nat) (type : TypeId) (branch : Store.Child) : Prop :=
  ∃ t, Settles ctx d k branch.id t ∧
    ∀ child, t = .generated child → child ≠ type → Joined d.graph type child

def GathersAll (ctx : Context) (d : Draft) (k : Nat) (id : NodeId) (type : TypeId) : Prop :=
  (d.store.node id).shape = .union → ∃ found, Branches d.store id found ∧
    ∀ branch ∈ found, Gathers ctx d k type branch

def Gathered (ctx : Context) (d : Draft) (k : Nat) (type : TypeId) : Prop :=
  ∃ id, d.store.id? (d.graph.get type).place = some id ∧ GathersAll ctx d k id type

def PlaceSettled (ctx : Context) (d : Draft) (k : Nat) (place : Location) : Prop :=
  ∃ id t, d.store.id? place = some id ∧ Settles ctx d k id t

def typedExtension (k : Keywords) : Bool :=
  match k.additionalProperties with
  | none | some (.bool _) | some (.object []) => false
  | some _ => true

theorem typedExtension_of {k : Keywords} {allowed : Json}
    (h : k.additionalProperties = some allowed)
    (hfalse : allowed ≠ .bool false) (htrue : allowed ≠ .bool true)
    (hempty : allowed ≠ .object []) : typedExtension k = true := by
  unfold typedExtension
  rw [h]
  cases allowed with
  | bool b =>
    cases b with
    | false => exact absurd rfl hfalse
    | true => exact absurd rfl htrue
  | object members =>
    cases members with
    | nil => exact absurd rfl hempty
    | cons => rfl
  | _ => rfl

def ChildPlace (settings : Settings) (schema : SchemaNode) (place : Location) : Prop :=
  ∃ metadata discriminator text tag, schema.keywords.family = some metadata ∧
    Discriminator.ofJson settings.defaultDiscriminatorId metadata = .ok discriminator ∧
    ⟨.reference text, tag⟩ ∈ discriminator.children ∧
    Location.ofReference schema.location.document text = .ok place

/-- The places of the schemas that a type takes in besides properties and branches. -/
inductive Beside (settings : Settings) (schema : SchemaNode) (kind : TypeKind) : Location → Prop
  | superclass (hkind : kind = .bean) (hsuper : schema.keywords.superclass.isSome = true) :
      Beside settings schema kind (schema.location.below ["extends"])
  | additional (hkind : kind = .bean) (henabled : settings.additionalPropertiesEnabled = true)
      (htyped : typedExtension schema.keywords = true) :
      Beside settings schema kind (schema.location.below ["additionalProperties"])
  | family {place : Location} (hkind : kind ≠ .enum) (hplace : ChildPlace settings schema place) :
      Beside settings schema kind place

def AttendsAll (ctx : Context) (d : Draft) (k : Nat) (id : NodeId) (kind : TypeKind) : Prop :=
  ∀ place, Beside ctx.settings (d.store.node id) kind place → PlaceSettled ctx d k place

def Attended (ctx : Context) (d : Draft) (k : Nat) (type : TypeId) : Prop :=
  ∃ id, d.store.id? (d.graph.get type).place = some id ∧
    AttendsAll ctx d k id (d.graph.get type).kind

/-- The constants are the literals of the schema, named one after the other, and their values are of
the type that the schema asks for. -/
structure Labels (settings : Settings) (k : Keywords) (decl : TypeDecl) : Prop where
  named : nameLiterals (k.javaEnumNames.getD []) [] (enumLiterals k) = .ok decl.constants
  values : decl.enumValueType = enumValueType settings k

def Labelled (ctx : Context) (d : Draft) (type : TypeId) : Prop :=
  (d.graph.get type).kind = .enum → ∃ id, d.store.id? (d.graph.get type).place = some id ∧
    Labels ctx.settings (d.store.node id).keywords (d.graph.get type)

/-- The types from a number on are complete, those of unions gather their branches, what they take
in besides is settled, and enums are labelled as their schemas say. -/
structure Built (ctx : Context) (d : Draft) (k base : Nat) : Prop where
  filled : Filled ctx d k base
  gathered : ∀ type, d.graph.Has type → base ≤ type.index → Gathered ctx d k type
  attended : ∀ type, d.graph.Has type → base ≤ type.index → Attended ctx d k type
  labelled : ∀ type, d.graph.Has type → base ≤ type.index → Labelled ctx d type

/-- A consistent state in which the types from a number on are built. -/
structure Steady (ctx : Context) (k base : Nat) (d : Draft) : Prop where
  consistent : Consistent d
  built : Built ctx d k base
  bounded : base ≤ d.graph.size

/-- A class whose properties for the first keys are there; all younger types are built. -/
structure Filling (ctx : Context) (k : Nat) (id : NodeId) (type : TypeId) (keys : List String)
    (d : Draft) : Prop extends Steady ctx k (type.index + 1) d where
  node : d.store.Has id
  has : d.graph.Has type
  place : (d.graph.get type).place = (d.store.node id).location
  populated : Populated ctx d k id keys (d.graph.get type).properties

/-- A class that is being filled and has noted no family yet. -/
structure Opening (ctx : Context) (k : Nat) (id : NodeId) (type : TypeId) (keys : List String)
    (d : Draft) : Prop extends Filling ctx k id type keys d where
  unclaimed : type ∉ d.families.map (·.parent)

/-- A rule that settles its schema and builds every type that it declares. -/
def Works (ctx : Context) (k : Nat) (rule : Rule) : Prop :=
  ∀ d request id, Consistent d → d.store.Has id → request.Fits d.graph →
    Follows (Acts ctx d.graph.size) (rule request id) d
      (fun t e => Settles ctx e k id t ∧ Built ctx e k d.graph.size)

theorem Describes.keeps (hs : d.store.Sound) (hid : d.store.Has id) (hr : Retains d e) (hle : k ≤ f)
    {key : String} {p : Property} (h : Describes ctx d k id key p) :
    Describes ctx e f id key p := by
  obtain ⟨found, hfound, hp, ht⟩ := h
  have hhas := hfound.has hs
  refine ⟨found, hfound.grows hs hid hr.grows, ?_, ?_⟩
  · rw [hr.grows.node hid, hr.grows.node hhas]
    exact hp
  · exact (ht.keeps hs hr hhas).mono (hr.grows.sound hs) hle (hr.grows.has hhas)

theorem Describes.key {key : String} {p : Property} (h : Describes ctx d k id key p) :
    p.key = key := by
  obtain ⟨found, -, hp, -⟩ := h
  exact (congrArg Property.key hp).trans (propertyOf_key _ _ _ _ _)

theorem Populated.keeps (hs : d.store.Sound) (hid : d.store.Has id) (hr : Retains d e) (hle : k ≤ f)
    {keys : List String} {properties : List Property} (h : Populated ctx d k id keys properties) :
    Populated ctx e f id keys properties :=
  ⟨h.described.imp fun _ _ hp => hp.keeps hs hid hr hle, h.distinct⟩

theorem Populated.snoc {keys : List String} {properties : List Property} {key : String}
    {p : Property} (h : Populated ctx d k id keys properties) (hp : Describes ctx d k id key p)
    (hnew : p.name ∉ properties.map (·.name)) :
    Populated ctx d k id (keys ++ [key]) (properties ++ [p]) := by
  refine ⟨List.rel_append h.described (.cons hp .nil), ?_⟩
  rw [List.map_append, List.map_singleton]
  exact List.nodup_append_comm.mp (List.nodup_cons.mpr ⟨hnew, h.distinct⟩)

theorem CompleteDecl.keeps (hs : d.store.Sound) (hid : d.store.Has id) (hr : Retains d e)
    (hle : k ≤ f) {decl decl' : TypeDecl} (hkind : decl'.kind = decl.kind)
    (hbody : decl'.body = decl.body)
    (h : CompleteDecl ctx d k id decl) : CompleteDecl ctx e f id decl' := by
  unfold CompleteDecl at h ⊢
  rw [hkind, TypeDecl.properties_of_body hbody, TypeDecl.constants_of_body hbody, hr.grows.node hid]
  cases hk : decl.kind with
  | bean =>
    rw [hk] at h
    exact Populated.keeps hs hid hr hle h
  | enum =>
    rw [hk] at h
    exact h
  | interface => trivial

theorem Complete.keeps (hs : d.store.Sound) (hr : Retains d e) (hk : d.graph.Keeps e.graph)
    (hle : k ≤ f) (hhas : d.graph.Has type)
    (hbody : (e.graph.get type).body = (d.graph.get type).body)
    (h : Complete ctx d k type) : Complete ctx e f type := by
  obtain ⟨id, hid, hdecl⟩ := h
  refine ⟨id, ?_, hdecl.keeps hs (hs.bound hid) hr hle (hk.kind hhas) hbody⟩
  rw [hk.place hhas]
  exact hr.grows.index hid

theorem Filled.mono (hs : d.store.Sound) (hle : k ≤ f) (h : Filled ctx d k base) :
    Filled ctx d f base :=
  fun type htype hbase =>
    (h type htype hbase).keeps hs (refl d) (.refl _) hle htype rfl

theorem Filled.after (hs : d.store.Sound) (hl : Leads ctx d.graph.size d e)
    (h : Filled ctx d k base) (hnew : Filled ctx e k d.graph.size) : Filled ctx e k base := by
  intro type htype hbase
  by_cases hold : d.graph.Has type
  · exact (h type hold hbase).keeps hs hl.retains hl.keeps (Nat.le_refl k) hold (hl.body hold hold)
  · exact hnew type htype (Nat.le_of_not_lt hold)

theorem Gathers.keeps (hs : d.store.Sound) (ha : Acts ctx base d e) (hle : k ≤ f)
    (htype : d.graph.Has type) {branch : Store.Child} (hbranch : d.store.Has branch.id)
    (h : Gathers ctx d k type branch) : Gathers ctx e f type branch := by
  obtain ⟨t, ht, hjoined⟩ := h
  refine ⟨t, (ht.keeps hs ha.retains hbranch).mono (ha.retains.grows.sound hs) hle
    (ha.retains.grows.has hbranch), fun child hchild hne => ?_⟩
  exact (hjoined child hchild hne).ascends ha.ascends (ha.keeps.kind htype)

theorem Gathered.keeps (hs : d.store.Sound) (ha : Acts ctx base d e) (hle : k ≤ f)
    (htype : d.graph.Has type) (h : Gathered ctx d k type) : Gathered ctx e f type := by
  obtain ⟨id, hid, hall⟩ := h
  have hhas := hs.bound hid
  refine ⟨id, ?_, fun hshape => ?_⟩
  · rw [ha.keeps.place htype]
    exact ha.retains.grows.index hid
  · rw [ha.retains.grows.node hhas] at hshape
    obtain ⟨found, hfound, hgathers⟩ := hall hshape
    exact ⟨found, hfound.grows hs hhas ha.retains.grows, fun branch hbranch =>
      (hgathers branch hbranch).keeps hs ha hle htype (hfound.has hs branch hbranch)⟩

theorem PlaceSettled.keeps (hs : d.store.Sound) (hr : Retains d e) (hle : k ≤ f) {place : Location}
    (h : PlaceSettled ctx d k place) : PlaceSettled ctx e f place := by
  obtain ⟨id, t, hid, ht⟩ := h
  have hhas := hs.bound hid
  exact ⟨id, t, hr.grows.index hid,
    (ht.keeps hs hr hhas).mono (hr.grows.sound hs) hle (hr.grows.has hhas)⟩

theorem AttendsAll.keeps (hs : d.store.Sound) (hid : d.store.Has id) (hr : Retains d e)
    (hle : k ≤ f) {kind : TypeKind} (h : AttendsAll ctx d k id kind) :
    AttendsAll ctx e f id kind := by
  intro place hplace
  rw [hr.grows.node hid] at hplace
  exact (h place hplace).keeps hs hr hle

theorem Attended.keeps (hs : d.store.Sound) (hr : Retains d e) (hk : d.graph.Keeps e.graph)
    (hle : k ≤ f) (htype : d.graph.Has type) (h : Attended ctx d k type) :
    Attended ctx e f type := by
  obtain ⟨id, hid, hall⟩ := h
  refine ⟨id, ?_, ?_⟩
  · rw [hk.place htype]
    exact hr.grows.index hid
  · rw [hk.kind htype]
    exact hall.keeps hs (hs.bound hid) hr hle

theorem Labelled.keeps (hs : d.store.Sound) (hr : Retains d e) (hk : d.graph.Keeps e.graph)
    (htype : d.graph.Has type) (hbody : (e.graph.get type).body = (d.graph.get type).body)
    (h : Labelled ctx d type) : Labelled ctx e type := by
  intro hkind
  rw [hk.kind htype] at hkind
  obtain ⟨id, hid, hlabels⟩ := h hkind
  refine ⟨id, ?_, ?_, ?_⟩
  · rw [hk.place htype]
    exact hr.grows.index hid
  · rw [hr.grows.node (hs.bound hid), TypeDecl.constants_of_body hbody]
    exact hlabels.named
  · rw [hr.grows.node (hs.bound hid), TypeDecl.enumValueType_of_body hbody]
    exact hlabels.values

theorem Built.mono (hs : d.store.Sound) (hle : k ≤ f) (h : Built ctx d k base) :
    Built ctx d f base where
  filled := h.filled.mono hs hle
  gathered type htype hbase :=
    (h.gathered type htype hbase).keeps hs (refl d : Acts ctx 0 d d) hle htype
  attended type htype hbase :=
    (h.attended type htype hbase).keeps hs (refl d) (.refl _) hle htype
  labelled := h.labelled

theorem built_size : Built ctx d k d.graph.size where
  filled _ htype hsize := absurd htype (Nat.not_lt.mpr hsize)
  gathered _ htype hsize := absurd htype (Nat.not_lt.mpr hsize)
  attended _ htype hsize := absurd htype (Nat.not_lt.mpr hsize)
  labelled _ htype hsize := absurd htype (Nat.not_lt.mpr hsize)

theorem Built.after (hs : d.store.Sound) (ha : Acts ctx d.graph.size d e) (h : Built ctx d k base)
    (hnew : Built ctx e k d.graph.size) : Built ctx e k base := by
  refine ⟨h.filled.after hs ha.leads hnew.filled, fun type htype hbase => ?_,
    fun type htype hbase => ?_, fun type htype hbase => ?_⟩ <;> by_cases hold : d.graph.Has type
  · exact (h.gathered type hold hbase).keeps hs ha (Nat.le_refl k) hold
  · exact hnew.gathered type htype (Nat.le_of_not_lt hold)
  · exact (h.attended type hold hbase).keeps hs ha.retains ha.keeps (Nat.le_refl k) hold
  · exact hnew.attended type htype (Nat.le_of_not_lt hold)
  · exact (h.labelled type hold hbase).keeps hs ha.retains ha.keeps hold (ha.leads.body hold hold)
  · exact hnew.labelled type htype (Nat.le_of_not_lt hold)

theorem Steady.scans (h : Steady ctx k base d) (hs : Scans d e) : Steady ctx k base e := by
  have ha : Acts ctx d.graph.size d e := .single (act_schemas hs)
  refine ⟨ha.consistent h.consistent, h.built.after h.consistent.store ha ?_, ?_⟩
  · rw [← hs.graph]
    exact built_size
  · rw [hs.graph]
    exact h.bounded

section Filling

variable {keys keys' : List String}

theorem Filling.after (h : Filling ctx k id type keys d) (ha : Acts ctx d.graph.size d e)
    (hs : Steady ctx k (type.index + 1) e) : Filling ctx k id type keys e := by
  have hproperties : (e.graph.get type).properties = (d.graph.get type).properties :=
    TypeDecl.properties_of_body (ha.leads.body h.has h.has)
  refine ⟨hs, ha.retains.grows.has h.node, ha.keeps.has h.has, ?_, ?_⟩
  · rw [ha.keeps.place h.has, ha.retains.grows.node h.node]
    exact h.place
  · rw [hproperties]
    exact h.populated.keeps h.consistent.store h.node ha.retains (Nat.le_refl k)

theorem Opening.after (h : Opening ctx k id type keys d) (ha : Acts ctx d.graph.size d e)
    (hs : Steady ctx k (type.index + 1) e) : Opening ctx k id type keys e :=
  ⟨h.toFilling.after ha hs, ha.unclaimed h.has h.unclaimed⟩

theorem Filling.acts (h : Filling ctx k id type keys d)
    (ha : Act ctx type.index d e) (hsize : e.graph.size = d.graph.size)
    (hbody : ∀ other, other ≠ type → (e.graph.get other).body = (d.graph.get other).body)
    (hpopulated : Populated ctx e k id keys' (e.graph.get type).properties) :
    Filling ctx k id type keys' e := by
  have hm := ha.move
  have hold : ∀ other, e.graph.Has other → d.graph.Has other :=
    fun _ hother => (TypeGraph.has_of_size hsize).mp hother
  have hlater : ∀ other : TypeId, type.index + 1 ≤ other.index → other ≠ type := by
    rintro other hlt rfl
    omega
  refine ⟨⟨hm.consistent h.consistent, ⟨?_, ?_, ?_, ?_⟩, by rw [hsize]; exact h.bounded⟩,
    hm.retains.grows.has h.node, hm.keeps.has h.has, ?_, hpopulated⟩
  · intro other hother hlt
    exact (h.built.filled other (hold other hother) hlt).keeps h.consistent.store
      hm.retains hm.keeps
      (Nat.le_refl k) (hold other hother) (hbody other (hlater other hlt))
  · intro other hother hlt
    exact (h.built.gathered other (hold other hother) hlt).keeps h.consistent.store (.single ha)
      (Nat.le_refl k) (hold other hother)
  · intro other hother hlt
    exact (h.built.attended other (hold other hother) hlt).keeps h.consistent.store hm.retains
      hm.keeps (Nat.le_refl k) (hold other hother)
  · intro other hother hlt
    exact (h.built.labelled other (hold other hother) hlt).keeps h.consistent.store hm.retains
      hm.keeps (hold other hother) (hbody other (hlater other hlt))
  · rw [hm.keeps.place h.has, hm.retains.grows.node h.node]
    exact h.place

end Filling

end SchemaBeans.Drafting
