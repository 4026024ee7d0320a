import SchemaBeans.Proofs.Generation.Settling
import SchemaBeans.Proofs.TypeGraph.Superclass

/-! # Moves of a run

Whatever a run does to its state is a row of moves: it looks schemas up, declares a type, fills in
something of a type, links a branch to its union, or notes a family. A move says under which checks
the run makes it. The types from a number on are those that a part of a run is filling; no move of
that part reaches into an earlier one, but for its place in the hierarchy. -/
namespace SchemaBeans

def TypeDecl.body (d : TypeDecl) : TypeDecl where
  properties := d.properties
  constants := d.constants
  enumValueType := d.enumValueType
  additionalProperties := d.additionalProperties

theorem TypeDecl.properties_of_body {a b : TypeDecl} (h : a.body = b.body) :
    a.properties = b.properties := by
  have hparts : a.body.properties = b.body.properties := by rw [h]
  exact hparts

theorem TypeDecl.constants_of_body {a b : TypeDecl} (h : a.body = b.body) :
    a.constants = b.constants := by
  have hparts : a.body.constants = b.body.constants := by rw [h]
  exact hparts

theorem TypeDecl.enumValueType_of_body {a b : TypeDecl} (h : a.body = b.body) :
    a.enumValueType = b.enumValueType := by
  have hparts : a.body.enumValueType = b.body.enumValueType := by rw [h]
  exact hparts

/-- The generated type that is named exists. -/
def TypeRef.Valid (t : TypeRef) (g : TypeGraph) : Prop := ∀ id, t.target? = some id → g.Has id

def ChildType.Valid (child : ChildType) (g : TypeGraph) : Prop :=
  ∀ t, child = .resolved t → t.Valid g

/-- The types that a waiting family names exist. -/
structure Family.Valid (family : Family) (g : TypeGraph) : Prop where
  parent : g.Has family.parent
  children : ∀ child ∈ family.children, child.1.Valid g

/-- The type that a request puts its type into exists. -/
def Request.Fits (request : Request) (g : TypeGraph) : Prop :=
  ∀ owner, request.placement = .inside owner → g.Has owner

section Keeping

variable {g h : TypeGraph}

theorem TypeRef.Valid.keeps {t : TypeRef} (hk : g.Keeps h) (ht : t.Valid g) : t.Valid h :=
  fun id hid => hk.has (ht id hid)

theorem ChildType.Valid.keeps {child : ChildType} (hk : g.Keeps h) (hc : child.Valid g) :
    child.Valid h :=
  fun t ht => (hc t ht).keeps hk

theorem Family.Valid.keeps {family : Family} (hk : g.Keeps h) (hf : family.Valid g) :
    family.Valid h :=
  ⟨hk.has hf.parent, fun child hchild => (hf.children child hchild).keeps hk⟩

theorem Request.Fits.keeps {request : Request} (hk : g.Keeps h) (hr : request.Fits g) :
    request.Fits h :=
  fun owner ho => hk.has (hr owner ho)

end Keeping

namespace Drafting

variable {ctx : Context} {base : Nat} {d e : Draft}

def updated (d : Draft) (type : TypeId) (change : TypeDecl → TypeDecl) : Draft :=
  { d with graph := d.graph.update type change }

/-- The state once a type is declared for a schema. -/
def declared (ctx : Context) (d : Draft) (request : Request) (id : NodeId) (kind : TypeKind) :
    Draft :=
  let schema := d.store.node id
  let slot := slot ctx.settings d.graph request schema.keywords
  { d with
    graph := (d.graph.insert
      { kind := kind, package := slot.package, name := slot.name, enclosing := slot.enclosing,
        place := schema.location, title := schema.keywords.title,
        description := schema.keywords.description }).2
    registry := d.registry.record (slot.qualified d.graph) ⟨d.graph.size⟩ schema.location }

/-- The checks before a type is declared. -/
structure Declarable (ctx : Context) (d : Draft) (request : Request) (id : NodeId)
    (kind : TypeKind) : Prop where
  has : d.store.Has id
  place : d.graph.typeAt? (d.store.node id).location = none
  library : library? (d.store.node id) = none
  makes : Makes d id kind
  fits : request.Fits d.graph
  claim : d.registry.claim
    ((slot ctx.settings d.graph request (d.store.node id).keywords).qualified d.graph)
    (d.store.node id).location = .ok .vacant
  enclosing : checkEnclosing d.graph
    (slot ctx.settings d.graph request (d.store.node id).keywords) (d.store.node id).location =
      .ok ()

/-- What a class may extend: another class that does not inherit from it, or a class of a
library. -/
inductive Extendable (g : TypeGraph) (type : TypeId) : TypeRef → Prop
  | library (name : String) : Extendable g type (.library name)
  | generated {parent : TypeId} (hhas : g.Has parent) (hkind : (g.get parent).kind = .bean)
      (hfree : g.inherits parent type = false) : Extendable g type (.generated parent)

inductive Move (ctx : Context) (base : Nat) (d : Draft) : Draft → Prop
  | schemas {e : Draft} (h : Scans d e) : Move ctx base d e
  | declare {request : Request} {id : NodeId} {kind : TypeKind}
      (h : Declarable ctx d request id kind) :
      Move ctx base d (declared ctx d request id kind)
  | extend {type : TypeId} {supertype : TypeRef} (hbase : base ≤ type.index)
      (h : Extendable d.graph type supertype) :
      Move ctx base d (updated d type fun t => { t with supertype := some supertype })
  | property {type : TypeId} {property : Property} (hbase : base ≤ type.index)
      (hnew : (d.graph.get type).property? property.name = none)
      (hvalid : property.type.Valid d.graph) :
      Move ctx base d (updated d type fun t => { t with properties := t.properties ++ [property] })
  | additional {type : TypeId} {value : TypeRef} (hbase : base ≤ type.index)
      (hvalid : value.Valid d.graph) :
      Move ctx base d (updated d type fun t => { t with additionalProperties := some value })
  | constants {type : TypeId} {constants : List EnumConstant} {value : TypeRef}
      (hbase : base ≤ type.index) (hvalid : value.Valid d.graph) :
      Move ctx base d
        (updated d type fun t => { t with constants := constants, enumValueType := value })
  | link {marker child : TypeId} (hmarker : d.graph.Has marker) (hchild : d.graph.Has child) :
      Move ctx base d
        { d with graph := linkBranch d.graph marker (d.graph.get marker).kind child }
  | family {family : Family} (hvalid : family.Valid d.graph) :
      Move ctx base d { d with families := d.families ++ [family] }

def Leads (ctx : Context) (base : Nat) : Draft → Draft → Prop :=
  Relation.ReflTransGen (Move ctx base)

instance : IsPreorder Draft (Leads ctx base) where
  refl _ := Relation.ReflTransGen.refl
  trans _ _ _ h k := Relation.ReflTransGen.trans h k

theorem get_linkBranch {α : Type} {part : TypeDecl → α}
    (hsuper : ∀ t x, part { t with supertype := x } = part t)
    (hinterfaces : ∀ t x, part { t with interfaces := x } = part t)
    (hsubtypes : ∀ t x, part { t with subtypes := x } = part t)
    (g : TypeGraph) (marker : TypeId) (kind : TypeKind) (child id : TypeId) :
    part ((linkBranch g marker kind child).get id) = part (g.get id) := by
  unfold linkBranch
  repeat' split
  all_goals
    simp only [TypeGraph.get_update_congr _ _ _ part fun t => hsubtypes t _,
      TypeGraph.get_update_congr _ _ _ part fun t => hsuper t _,
      TypeGraph.get_update_congr _ _ _ part fun t => hinterfaces t _]

theorem size_linkBranch (g : TypeGraph) (marker : TypeId) (kind : TypeKind) (child : TypeId) :
    (linkBranch g marker kind child).size = g.size := by
  unfold linkBranch
  repeat' split
  all_goals simp

theorem keeps_linkBranch (g : TypeGraph) (marker : TypeId) (kind : TypeKind) (child : TypeId) :
    g.Keeps (linkBranch g marker kind child) where
  heads id hid := ⟨by rwa [TypeGraph.Has, size_linkBranch],
    get_linkBranch (fun _ _ => rfl) (fun _ _ => rfl) (fun _ _ => rfl) g marker kind child id⟩
  indexed := by
    refine ⟨[], ?_, size_linkBranch g marker kind child⟩
    unfold linkBranch
    repeat' split
    all_goals rfl
  nested _ id := @get_linkBranch _ TypeDecl.nested (fun _ _ => rfl) (fun _ _ => rfl)
    (fun _ _ => rfl) g marker kind child id

theorem retains_of_graph {g : TypeGraph} (hk : d.graph.Keeps g) (hsize : g.size = d.graph.size) :
    Retains d { d with graph := g } :=
  ⟨⟨refl d.store, fun _ {_ _ _} hm => hm⟩, fun {_ _} ht => (hk.typeAt? hsize _).trans ht⟩

theorem Move.keeps (h : Move ctx base d e) : d.graph.Keeps e.graph := by
  cases h with
  | schemas h =>
    rw [h.graph]
    exact .refl _
  | declare => exact TypeGraph.keeps_insert _ _
  | extend | property | additional | constants =>
    exact TypeGraph.keeps_update _ _ (fun _ => rfl) fun _ => rfl
  | link => exact keeps_linkBranch _ _ _ _
  | family => exact .refl _

theorem Move.retains (h : Move ctx base d e) : Retains d e := by
  cases h with
  | schemas h => exact ⟨h.toRemembers, fun {_ _} ht => by rw [h.graph]; exact ht⟩
  | declare h =>
    refine ⟨⟨refl d.store, fun _ {_ _ _} hm => hm⟩, fun {place type} ht => ?_⟩
    refine (TypeGraph.typeAt?_insert _ _ place).trans ((if_neg ?_).trans ht)
    rintro rfl
    rw [h.place] at ht
    cases ht
  | extend | property | additional | constants =>
    exact retains_of_graph (TypeGraph.keeps_update _ _ (fun _ => rfl) fun _ => rfl)
      (TypeGraph.size_update _ _ _)
  | link => exact retains_of_graph (keeps_linkBranch _ _ _ _) (size_linkBranch _ _ _ _)
  | family => exact ⟨⟨refl d.store, fun _ {_ _ _} hm => hm⟩, fun {_ _} ht => ht⟩

theorem Move.body (h : Move ctx base d e) {id : TypeId} (hid : d.graph.Has id)
    (hlt : id.index < base) : (e.graph.get id).body = (d.graph.get id).body := by
  cases h with
  | schemas h => rw [h.graph]
  | declare => exact (congrArg TypeDecl.body (TypeGraph.get_insert_of_has hid _)).trans rfl
  | extend hbase | property hbase | additional hbase | constants hbase =>
    exact congrArg TypeDecl.body (TypeGraph.get_update_ne (by rintro rfl; omega) _)
  | link => exact get_linkBranch (fun _ _ => rfl) (fun _ _ => rfl) (fun _ _ => rfl) _ _ _ _ id
  | family => rfl

theorem Move.lower {lower : Nat} (hle : lower ≤ base) (h : Move ctx base d e) :
    Move ctx lower d e := by
  cases h with
  | schemas h => exact .schemas h
  | declare h => exact .declare h
  | extend hbase h => exact .extend (Nat.le_trans hle hbase) h
  | property hbase hnew hvalid => exact .property (Nat.le_trans hle hbase) hnew hvalid
  | additional hbase hvalid => exact .additional (Nat.le_trans hle hbase) hvalid
  | constants hbase hvalid => exact .constants (Nat.le_trans hle hbase) hvalid
  | link hmarker hchild => exact .link hmarker hchild
  | family hvalid => exact .family hvalid

theorem Leads.keeps (h : Leads ctx base d e) : d.graph.Keeps e.graph := by
  induction h with
  | refl => exact .refl _
  | tail _ hm ih => exact ih.trans hm.keeps

theorem Leads.retains (h : Leads ctx base d e) : Retains d e := by
  induction h with
  | refl => exact refl d
  | tail _ hm ih => exact IsTrans.trans _ _ _ ih hm.retains

theorem Leads.body (h : Leads ctx base d e) {id : TypeId} (hid : d.graph.Has id)
    (hlt : id.index < base) : (e.graph.get id).body = (d.graph.get id).body := by
  induction h with
  | refl => rfl
  | tail hde hm ih => exact (hm.body ((Leads.keeps hde).has hid) hlt).trans ih

theorem Leads.lower {lower : Nat} (hle : lower ≤ base) (h : Leads ctx base d e) :
    Leads ctx lower d e :=
  Relation.ReflTransGen.mono (fun _ _ hm => hm.lower hle) _ _ h

end Drafting

end SchemaBeans
