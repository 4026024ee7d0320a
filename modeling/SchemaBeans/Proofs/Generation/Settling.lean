import SchemaBeans.Proofs.Generation.Unions
import SchemaBeans.Proofs.TypeGraph.Access

/-! # Settled schemas

The type of a schema is settled when everything it takes to find it is known: the type declared at
its place, the class it names, or the settled types of what it stands for. A settled schema is
generated again without a change, under any request, as long as declared types are declared for
schemas that make them. -/
namespace SchemaBeans.Drafting

variable {ctx : Context} {d e : Draft} {id : NodeId} {k f : Nat}

/-- The existing class that a schema names for itself. -/
def library? (schema : SchemaNode) : Option String :=
  match schema.keywords.existingJavaType, schema.keywords.javaType, mayNameLibrary schema.shape with
  | some name, _, _ => some name
  | none, some name, true => some name
  | _, _, _ => none

def untypedItems (k : Keywords) : Bool :=
  match k.items with
  | none | some (.array _) => true
  | some _ => false

def collection (k : Keywords) (element : TypeRef) : TypeRef :=
  if k.uniqueItems = some true then .set element else .list element

def commonType : List TypeRef → TypeRef
  | first :: others => if others.all (· == first) then first else .any
  | [] => .any

/-- The kind of type that is declared for a schema. -/
inductive Makes (d : Draft) (id : NodeId) : TypeKind → Prop
  | object (hshape : (d.store.node id).shape = .object) : Makes d id .bean
  | enumeration (hshape : (d.store.node id).shape = .enumeration) : Makes d id .enum
  | union {k : Nat} {found : List Store.Child} {shapes : List Shape} {kind : TypeKind}
      (hshape : (d.store.node id).shape = .union) (hplan : Plan d k id found shapes)
      (hkind : marker? (d.store.node id).keywords found shapes = some kind) : Makes d id kind

def Declared (d : Draft) : Prop :=
  ∀ type, d.graph.Has type → ∃ id, d.store.id? (d.graph.get type).place = some id ∧
    (d.store.node id).location = (d.graph.get type).place ∧ library? (d.store.node id) = none ∧
    Makes d id (d.graph.get type).kind

/-- The type of a schema is found from the settled types below it. -/
inductive SettlesBy (ctx : Context) (d : Draft) (k : Nat) (below : NodeId → TypeRef → Prop)
    (id : NodeId) (schema : SchemaNode) : TypeRef → Prop
  | typed {type : TypeId} (htype : d.graph.typeAt? schema.location = some type) :
      SettlesBy ctx d k below id schema (.generated type)
  | library {name : String} (hname : library? schema = some name) :
      SettlesBy ctx d k below id schema (.library name)
  | allOf {made : NodeId} {t : TypeRef} (hlib : library? schema = none)
      (hshape : schema.shape = .allOf) (hmerge : Merges d.store d.merging k id made)
      (hbelow : below made t) : SettlesBy ctx d k below id schema t
  | union {found : List Store.Child} {shapes : List Shape} {types : List TypeRef}
      (hlib : library? schema = none) (hshape : schema.shape = .union)
      (hplan : Plan d k id found shapes) (hkind : marker? schema.keywords found shapes = none)
      (hbelow : List.Forall₂ (fun branch t => below branch.id t) found types) :
      SettlesBy ctx d k below id schema (commonType types)
  | untyped (hlib : library? schema = none) (hshape : schema.shape = .array)
      (hitems : untypedItems schema.keywords = true) :
      SettlesBy ctx d k below id schema (collection schema.keywords .any)
  | items {found : Store.Child} {element : TypeRef} (hlib : library? schema = none)
      (hshape : schema.shape = .array) (hitems : untypedItems schema.keywords = false)
      (hfound : d.store.Found id ["items"] found) (hbelow : below found.id element) :
      SettlesBy ctx d k below id schema (collection schema.keywords element)
  | primitive {p : Primitive} (hlib : library? schema = none)
      (hshape : schema.shape = .primitive p) :
      SettlesBy ctx d k below id schema (primitiveType ctx.settings schema.keywords p)
  | any (hlib : library? schema = none) (hshape : schema.shape = .any) :
      SettlesBy ctx d k below id schema .any

/-- The number bounds how deep schemas stand in one another. -/
def Settles (ctx : Context) (d : Draft) : Nat → NodeId → TypeRef → Prop
  | 0, _, _ => False
  | k + 1, id, t => SettlesBy ctx d (k + 1) (Settles ctx d k) id (d.store.node id) t

/-- What was known stays known, and every place keeps its type. -/
structure Retains (d e : Draft) : Prop extends Remembers d e where
  types : ∀ {place type}, d.graph.typeAt? place = some type → e.graph.typeAt? place = some type

instance : IsPreorder Draft Retains where
  refl d := ⟨refl d, fun {_ _} h => h⟩
  trans _ _ _ h k := ⟨IsTrans.trans _ _ _ h.toRemembers k.toRemembers,
    fun {_ _} ht => k.types (h.types ht)⟩

theorem Makes.keeps {kind : TypeKind} (hs : d.store.Sound) (hid : d.store.Has id)
    (hr : Remembers d e) (h : Makes d id kind) : Makes e id kind := by
  have hnode := hr.grows.node hid
  cases h with
  | object hshape => exact .object (by rw [hnode, hshape])
  | enumeration hshape => exact .enumeration (by rw [hnode, hshape])
  | union hshape hplan hkind =>
    exact .union (by rw [hnode, hshape]) (hplan.keeps hs hid hr) (by rw [hnode, hkind])

theorem SettlesBy.imp {schema : SchemaNode} {below below' : NodeId → TypeRef → Prop} {t : TypeRef}
    (hs : d.store.Sound) (hid : d.store.Has id) (hr : Retains d e) (hle : k ≤ f)
    (hbelow : ∀ a u, d.store.Has a → below a u → below' a u)
    (h : SettlesBy ctx d k below id schema t) : SettlesBy ctx e f below' id schema t := by
  cases h with
  | typed htype => exact .typed (hr.types htype)
  | library hname => exact .library hname
  | allOf hlib hshape hmerge ht =>
    exact .allOf hlib hshape ((hr.merges hs hmerge).mono hle) (hbelow _ _ (hmerge.has_made hs) ht)
  | union hlib hshape hplan hkind ht =>
    have hboth := (List.forall₂_and_left _ _).mpr ⟨hplan.branches.has hs, ht⟩
    exact .union hlib hshape ((hplan.keeps hs hid hr.toRemembers).mono hle) hkind
      (hboth.imp fun _ _ ⟨hb, ht⟩ => hbelow _ _ hb ht)
  | untyped hlib hshape hitems => exact .untyped hlib hshape hitems
  | items hlib hshape hitems hfound ht =>
    exact .items hlib hshape hitems (hfound.grows hs hid hr.grows) (hbelow _ _ (hfound.has hs) ht)
  | primitive hlib hshape => exact .primitive hlib hshape
  | any hlib hshape => exact .any hlib hshape

theorem Settles.keeps (hs : d.store.Sound) (hr : Retains d e) :
    ∀ {k : Nat} {id : NodeId} {t : TypeRef},
    d.store.Has id → Settles ctx d k id t → Settles ctx e k id t := by
  intro k
  induction k with
  | zero => exact fun _ h => h.elim
  | succ k ih =>
    intro id t hid h
    rw [Settles, hr.grows.node hid]
    exact h.imp hs hid hr (Nat.le_refl _) fun a u ha hu => ih ha hu

theorem Settles.mono (hs : d.store.Sound) : ∀ {k f : Nat} {id : NodeId} {t : TypeRef}, k ≤ f →
    d.store.Has id → Settles ctx d k id t → Settles ctx d f id t := by
  intro k
  induction k with
  | zero => exact fun _ _ h => h.elim
  | succ k ih =>
    intro f id t hle hid h
    obtain ⟨f, rfl⟩ : ∃ g, f = g + 1 := ⟨f - 1, by omega⟩
    exact h.imp hs hid (refl d) hle fun a u ha hu => ih (by omega) ha hu

theorem SettlesBy.typed_of_makes {kind : TypeKind} {below : NodeId → TypeRef → Prop} {t : TypeRef}
    (hlib : library? (d.store.node id) = none) (hmakes : Makes d id kind)
    (h : SettlesBy ctx d k below id (d.store.node id) t) :
    ∃ type, d.graph.typeAt? (d.store.node id).location = some type ∧ t = .generated type := by
  cases h with
  | typed htype => exact ⟨_, htype, rfl⟩
  | library hname => rw [hlib] at hname; cases hname
  | union _ _ hplan hkind _ =>
    cases hmakes with
    | object hshape => simp_all
    | enumeration hshape => simp_all
    | union _ hplan' hkind' =>
      obtain ⟨rfl, rfl⟩ := hplan.unique hplan'
      rw [hkind] at hkind'
      cases hkind'
  | _ => cases hmakes <;> simp_all

section Dispatch

variable {rule : Rule} {request : Request}

theorem dispatchWith_typed {type : TypeId}
    (h : d.graph.typeAt? (d.store.node id).location = some type) :
    Repeats (dispatchWith ctx f rule request id) d (.generated type) := by
  unfold dispatchWith
  refine Repeats.bind (a := d.store.node id) rfl (Repeats.bind (a := d) rfl ?_)
  simp only [h]
  exact Repeats.pure d _

theorem dispatchWith_library {name : String}
    (htype : d.graph.typeAt? (d.store.node id).location = none)
    (hname : library? (d.store.node id) = some name) :
    Repeats (dispatchWith ctx f rule request id) d (.library name) := by
  unfold dispatchWith
  refine Repeats.bind (a := d.store.node id) rfl (Repeats.bind (a := d) rfl ?_)
  simp only [htype]
  unfold library? at hname
  split at hname <;> simp_all [Repeats.pure]

theorem dispatchWith_shape (htype : d.graph.typeAt? (d.store.node id).location = none)
    (hlib : library? (d.store.node id) = none) :
    (dispatchWith ctx f rule request id).run d =
      (shapeRule ctx f rule (d.store.node id).shape request id).run d := by
  unfold dispatchWith
  refine (run_bind_ok (a := d.store.node id) (t := d) rfl).trans
    ((run_bind_ok (a := d) (t := d) rfl).trans ?_)
  simp only [htype]
  unfold library? at hlib
  split at hlib <;> simp_all

theorem requestFor_repeats (found : Store.Child) (name : String) (placement : Placement) :
    ∃ request, Repeats (requestFor found name placement) d request := by
  unfold requestFor
  by_cases h : found.byReference = true
  · rw [if_pos h]
    exact ⟨_, Repeats.bind (a := d.store.node found.id) rfl (Repeats.pure d _)⟩
  · rw [if_neg h]
    exact ⟨_, Repeats.pure d _⟩

theorem branchRule_repeats {branch : Store.Child} {name : String} {t : TypeRef}
    (h : ∀ request, Repeats (rule request branch.id) d t) :
    Repeats (branchRule rule request branch name) d t := by
  obtain ⟨inner, hinner⟩ := requestFor_repeats (d := d) branch name request.placement
  unfold branchRule
  exact hinner.bind (h inner)

theorem collapse_repeats {found : List Store.Child} {types : List TypeRef}
    (h : List.Forall₂ (fun branch t => ∀ request, Repeats (rule request branch.id) d t)
      found types) :
    Repeats (collapse rule request found) d (commonType types) := by
  have hall : ∀ n, List.Forall₂ (fun (entry : Store.Child × Nat) t =>
      Repeats (branchRule rule request entry.1 (branchName request entry.2)) d t)
      (found.zipIdx n) types := by
    induction h with
    | nil => exact fun _ => .nil
    | cons hb _ ih => exact fun n => .cons (branchRule_repeats hb) (ih (n + 1))
  unfold collapse
  refine (Repeats.mapM (hall 0)).bind ?_
  cases types <;> exact Repeats.pure d _

theorem unionRule_repeats {found : List Store.Child} {shapes : List Shape} {types : List TypeRef}
    (hplan : Plan d f id found shapes)
    (hkind : marker? (d.store.node id).keywords found shapes = none)
    (h : List.Forall₂ (fun branch t => ∀ request, Repeats (rule request branch.id) d t)
      found types) :
    Repeats (unionRule ctx f rule request id) d (commonType types) := by
  have hbranches := branches_repeats ctx hplan.branches
  have hshapes := Repeats.mapM (hplan.shapes.imp fun _ _ he =>
    effectiveShape_repeats ctx (Nat.le_refl f) he)
  unfold unionRule
  refine Repeats.bind (a := d.store.node id) rfl ?_
  rcases hlist : branchList (d.store.node id).keywords with ⟨keyword, count⟩
  rw [hlist] at hbranches
  simp only [hlist]
  refine hbranches.bind (hshapes.bind ?_)
  show Repeats (unionOutcome ctx rule request id (d.store.node id).keywords found shapes) d _
  rcases unionOutcome_of_none hkind with ⟨only, rfl, houtcome⟩ | houtcome
  · rw [houtcome]
    obtain ⟨t, _, ht, hrest, rfl⟩ := List.forall₂_cons_left_iff.mp h
    obtain rfl := List.forall₂_nil_left_iff.mp hrest
    exact branchRule_repeats ht
  · rw [houtcome]
    exact collapse_repeats h

theorem arrayRule_repeats_untyped (hitems : untypedItems (d.store.node id).keywords = true) :
    Repeats (arrayRule ctx rule request id) d (collection (d.store.node id).keywords .any) := by
  unfold arrayRule
  refine Repeats.bind (a := d.store.node id) rfl ?_
  unfold untypedItems at hitems
  split at hitems
  · rename_i hnone
    simp only [hnone]
    exact Repeats.bind (Repeats.pure d _) (Repeats.pure d _)
  · rename_i harray
    simp only [harray]
    exact Repeats.bind (Repeats.pure d _) (Repeats.pure d _)
  · cases hitems

theorem arrayRule_repeats_items {found : Store.Child} {element : TypeRef}
    (hitems : untypedItems (d.store.node id).keywords = false)
    (hfound : d.store.Found id ["items"] found)
    (h : ∀ request, Repeats (rule request found.id) d element) :
    Repeats (arrayRule ctx rule request id) d (collection (d.store.node id).keywords element) := by
  obtain ⟨inner, hinner⟩ := requestFor_repeats (d := d) found (Names.singularize request.name)
    request.placement
  unfold arrayRule
  refine Repeats.bind (a := d.store.node id) rfl ?_
  unfold untypedItems at hitems
  split at hitems
  · cases hitems
  · cases hitems
  · rename_i hsome
    simp only [hsome]
    exact (child_repeats ctx hfound).bind (hinner.bind ((h inner).bind (Repeats.pure d _)))

end Dispatch

theorem Settles.repeats (hs : d.store.Sound) (hp : d.graph.Placed) (hd : Declared d) :
    ∀ {k : Nat} {id : NodeId} {t : TypeRef},
    d.store.Has id → Settles ctx d k id t → ∀ {f : Nat} (request : Request), k ≤ f →
      Repeats (dispatch ctx f request id) d t := by
  intro k
  induction k with
  | zero => exact fun _ h => h.elim
  | succ k ih =>
    intro id t hid h f request hle
    obtain ⟨f, rfl⟩ : ∃ g, f = g + 1 := ⟨f - 1, by omega⟩
    rw [dispatch]
    cases htype : d.graph.typeAt? (d.store.node id).location with
    | some type =>
      obtain ⟨hhas, hplace⟩ := TypeGraph.typeAt?_some hp htype
      obtain ⟨maker, hmaker, -, hlib, hmakes⟩ := hd type hhas
      rw [hplace, hs.own hid] at hmaker
      obtain rfl := Option.some.inj hmaker
      obtain ⟨other, hother, rfl⟩ := h.typed_of_makes hlib hmakes
      exact dispatchWith_typed hother
    | none =>
      have below : ∀ a u, d.store.Has a → Settles ctx d k a u →
          ∀ request, Repeats (dispatch ctx f request a) d u :=
        fun a u ha hu request => ih ha hu request (by omega)
      cases h with
      | typed htype' => rw [htype] at htype'; cases htype'
      | library hname => exact dispatchWith_library htype hname
      | allOf hlib hshape hmerge ht =>
        refine (dispatchWith_shape htype hlib).trans ?_
        rw [hshape]
        exact (mergeAllOf_repeats hle hmerge).bind (below _ _ (hmerge.has_made hs) ht request)
      | union hlib hshape hplan hkind ht =>
        refine (dispatchWith_shape htype hlib).trans ?_
        rw [hshape]
        have hboth := (List.forall₂_and_left _ _).mpr ⟨hplan.branches.has hs, ht⟩
        exact unionRule_repeats (hplan.mono hle) hkind
          (hboth.imp fun _ _ ⟨hb, ht⟩ => below _ _ hb ht)
      | untyped hlib hshape hitems =>
        refine (dispatchWith_shape htype hlib).trans ?_
        rw [hshape]
        exact arrayRule_repeats_untyped hitems
      | items hlib hshape hitems hfound ht =>
        refine (dispatchWith_shape htype hlib).trans ?_
        rw [hshape]
        exact arrayRule_repeats_items hitems hfound (below _ _ (hfound.has hs) ht)
      | primitive hlib hshape =>
        refine (dispatchWith_shape htype hlib).trans ?_
        rw [hshape]
        exact Repeats.bind (a := d.store.node id) rfl (Repeats.pure d _)
      | any hlib hshape =>
        refine (dispatchWith_shape htype hlib).trans ?_
        rw [hshape]
        exact Repeats.pure d _

end SchemaBeans.Drafting
