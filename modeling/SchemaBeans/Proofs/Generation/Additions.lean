import SchemaBeans.Proofs.Generation.Consistency
import SchemaBeans.Proofs.Generation.Unions

/-! # What generating adds

There is no way back in a run: what was done before a fault stays done. But a call only adds. The
types from a number on are those that the call declares; it puts their names in front of the names
given away and their families behind the families that wait. An earlier type stays as it is, unless
a union that the call declares takes it as a branch: then it gets that union as an interface, or as
its superclass if it extends nothing. -/
namespace SchemaBeans

/-- A type of the graph, and none of the first ones. -/
structure TypeGraph.Newer (g : TypeGraph) (base : Nat) (type : TypeId) : Prop where
  from_base : base ≤ type.index
  has : g.Has type

/-- The newer type is that of a union, with the other type among its branches. -/
structure TypeGraph.Unites (g : TypeGraph) (base : Nat) (type marker : TypeId) : Prop
    extends g.Newer base marker where
  branch : type ∈ (g.get marker).subtypes

/-- The declaration of the type joined unions among the newer types, and is otherwise what it
was. -/
structure TypeDecl.Joins (g : TypeGraph) (base : Nat) (type : TypeId) (old new : TypeDecl) :
    Prop where
  rest : { new with supertype := old.supertype, interfaces := old.interfaces } = old
  supertype : new.supertype = old.supertype ∨ old.supertype = none ∧
    ∃ marker, g.Unites base type marker ∧ new.supertype = some (.generated marker)
  interfaces : ∃ added, new.interfaces = old.interfaces ++ added ∧
    ∀ marker ∈ added, g.Unites base type marker

/-- Everything there was is still there, and what came to it belongs to newer types. -/
structure Adds (base : Nat) (d e : Draft) : Prop where
  size : d.graph.size ≤ e.graph.size
  branches : ∀ type, (d.graph.get type).subtypes ⊆ (e.graph.get type).subtypes
  types : ∀ type : TypeId, type.index < base →
    TypeDecl.Joins e.graph base type (d.graph.get type) (e.graph.get type)
  names : ∃ added, e.registry.slots = added ++ d.registry.slots ∧
    ∀ slot ∈ added, e.graph.Newer base slot.2.1
  families : ∃ added, e.families = d.families ++ added ∧
    ∀ family ∈ added, e.graph.Newer base family.parent
  places : ∃ added, e.graph.places = added ++ d.graph.places ∧
    ∀ entry ∈ added, e.graph.Newer base entry.2

section Adds

variable {base : Nat} {d e f : Draft}

theorem TypeGraph.Newer.grow {g h : TypeGraph} {type : TypeId} (hle : g.size ≤ h.size)
    (ht : g.Newer base type) : h.Newer base type :=
  ⟨ht.from_base, Nat.lt_of_lt_of_le ht.has hle⟩

theorem TypeDecl.Joins.refl (g : TypeGraph) (type : TypeId) (decl : TypeDecl) :
    Joins g base type decl decl := ⟨rfl, .inl rfl, [], by simp⟩

theorem TypeDecl.Joins.grow {type : TypeId} {a b : TypeDecl} (hde : Adds base d e)
    (hab : Joins d.graph base type a b) : Joins e.graph base type a b := by
  obtain ⟨added, hadded, hnew⟩ := hab.interfaces
  have hgrow : ∀ marker, d.graph.Unites base type marker → e.graph.Unites base type marker :=
    fun marker h => ⟨h.toNewer.grow hde.size, hde.branches marker h.branch⟩
  exact ⟨hab.rest, hab.supertype.imp_right fun ⟨ha, marker, hmarker, hb⟩ =>
    ⟨ha, marker, hgrow marker hmarker, hb⟩, added, hadded, fun marker hm =>
      hgrow marker (hnew marker hm)⟩

theorem TypeDecl.Joins.trans {type : TypeId} {a b c : TypeDecl} (hde : Adds base d e)
    (hab : Joins d.graph base type a b) (hbc : Joins e.graph base type b c) :
    Joins e.graph base type a c := by
  constructor
  · have hrest : ({ c with supertype := a.supertype, interfaces := a.interfaces } : TypeDecl) =
        { { c with supertype := b.supertype, interfaces := b.interfaces } with
          supertype := a.supertype, interfaces := a.interfaces } := rfl
    rw [hrest, hbc.rest, hab.rest]
  · rcases hbc.supertype with hc | ⟨hb, marker, hmarker, hc⟩
    · rw [hc]
      exact (hab.grow hde).supertype
    · rcases hab.supertype with ha | ⟨_, other, _, hother⟩
      · exact .inr ⟨ha.symm.trans hb, marker, hmarker, hc⟩
      · rw [hb] at hother
        cases hother
  · obtain ⟨first, hfirst, hfirstNew⟩ := (hab.grow hde).interfaces
    obtain ⟨second, hsecond, hsecondNew⟩ := hbc.interfaces
    refine ⟨first ++ second, by rw [hsecond, hfirst, List.append_assoc], fun marker hmarker => ?_⟩
    exact (List.mem_append.mp hmarker).elim (hfirstNew marker) (hsecondNew marker)

/-- Two additions at the front of a list are one, if what came first keeps its property. -/
theorem exists_append_trans {α : Type} {P Q : α → Prop} {a b c : List α} (hPQ : ∀ x, P x → Q x)
    (hab : ∃ added, b = added ++ a ∧ ∀ x ∈ added, P x)
    (hbc : ∃ added, c = added ++ b ∧ ∀ x ∈ added, Q x) :
    ∃ added, c = added ++ a ∧ ∀ x ∈ added, Q x := by
  obtain ⟨first, rfl, hfirst⟩ := hab
  obtain ⟨second, rfl, hsecond⟩ := hbc
  refine ⟨second ++ first, (List.append_assoc _ _ _).symm, fun x hx => ?_⟩
  exact (List.mem_append.mp hx).elim (hsecond x) fun hx => hPQ x (hfirst x hx)

instance : IsPreorder Draft (Adds base) where
  refl d := ⟨Nat.le_refl _, fun _ => List.Subset.refl _, fun _ _ => .refl _ _ _, ⟨[], by simp⟩,
    ⟨[], by simp⟩, ⟨[], by simp⟩⟩
  trans d e f h k := by
    have hnewer : ∀ type, e.graph.Newer base type → f.graph.Newer base type :=
      fun type ht => ht.grow k.size
    refine ⟨Nat.le_trans h.size k.size, fun type => List.Subset.trans (h.branches type)
      (k.branches type),
      fun type ht => (h.types type ht).trans k (k.types type ht),
      exists_append_trans (fun _ => hnewer _) h.names k.names, ?_,
      exists_append_trans (fun _ => hnewer _) h.places k.places⟩
    · obtain ⟨first, hfirst, hfirstNew⟩ := h.families
      obtain ⟨second, hsecond, hsecondNew⟩ := k.families
      refine ⟨first ++ second, by rw [hsecond, hfirst, List.append_assoc], fun family hfamily => ?_⟩
      rcases List.mem_append.mp hfamily with hf | hf
      · exact hnewer _ (hfirstNew family hf)
      · exact hsecondNew family hf

theorem adds_graph {g : TypeGraph} (hsize : d.graph.size ≤ g.size)
    (hplaces : g.places = d.graph.places)
    (hbranches : ∀ type, (d.graph.get type).subtypes ⊆ (g.get type).subtypes)
    (htypes : ∀ type : TypeId, type.index < base →
      TypeDecl.Joins g base type (d.graph.get type) (g.get type)) :
    Adds base d { d with graph := g } :=
  ⟨hsize, hbranches, htypes, ⟨[], by simp⟩, ⟨[], by simp⟩, ⟨[], by simp [hplaces]⟩⟩

theorem adds_of_same (hgraph : e.graph = d.graph) (hregistry : e.registry = d.registry)
    (hfamilies : e.families = d.families) : Adds base d e := by
  refine ⟨by rw [hgraph], fun type => ?_, fun type _ => ?_, ⟨[], by simp [hregistry]⟩,
    ⟨[], by simp [hfamilies]⟩, ⟨[], by simp [hgraph]⟩⟩ <;> rw [hgraph]
  · exact List.Subset.refl _
  · exact .refl _ _ _

theorem subtypes_update {g : TypeGraph} {type : TypeId} {change : TypeDecl → TypeDecl}
    (hchange : ∀ t, t.subtypes ⊆ (change t).subtypes) (other : TypeId) :
    (g.get other).subtypes ⊆ ((g.update type change).get other).subtypes := by
  by_cases hother : other = type
  · subst hother
    by_cases hhas : g.Has other
    · rw [TypeGraph.get_update_self hhas]
      exact hchange _
    · rw [TypeGraph.get_of_not_has hhas]
      exact List.nil_subset _
  · rw [TypeGraph.get_update_ne hother]
    exact List.Subset.refl _

theorem adds_update {type : TypeId} (hbase : base ≤ type.index) {change : TypeDecl → TypeDecl}
    (hchange : ∀ t, t.subtypes ⊆ (change t).subtypes) :
    Adds base d { d with graph := d.graph.update type change } := by
  refine adds_graph (Nat.le_of_eq (TypeGraph.size_update _ _ _).symm) rfl (subtypes_update hchange)
    fun other hother => ?_
  rw [TypeGraph.get_update_ne (by rintro rfl; omega)]
  exact .refl _ _ _

theorem adds_family {family : Family} (hparent : d.graph.Newer base family.parent) :
    Adds base d { d with families := d.families ++ [family] } :=
  ⟨Nat.le_refl _, fun _ => List.Subset.refl _, fun _ _ => .refl _ _ _, ⟨[], by simp⟩,
    ⟨[family], rfl, by simpa using hparent⟩, ⟨[], by simp⟩⟩

theorem joins_interface {g : TypeGraph} {type marker : TypeId}
    (hmarker : g.Unites base type marker) (decl : TypeDecl) :
    TypeDecl.Joins g base type decl
      { decl with interfaces := Family.addOnce marker decl.interfaces } := by
  refine ⟨rfl, .inl rfl, ?_⟩
  unfold Family.addOnce
  split
  · exact ⟨[], by simp⟩
  · exact ⟨[marker], rfl, by simpa using hmarker⟩

theorem joins_superclass {g : TypeGraph} {type marker : TypeId}
    (hmarker : g.Unites base type marker) {decl : TypeDecl} (hnone : decl.supertype = none) :
    TypeDecl.Joins g base type decl { decl with supertype := some (.generated marker) } :=
  ⟨rfl, .inr ⟨hnone, marker, hmarker, rfl⟩, [], by simp⟩

/-- Without a declaration nothing was added. -/
theorem Adds.same (h : Adds d.graph.size d e) (hsize : e.graph.size = d.graph.size) :
    e.graph = d.graph ∧ e.registry = d.registry ∧ e.families = d.families := by
  have hnone : ∀ type, ¬ e.graph.Newer d.graph.size type := fun type ht =>
    Nat.not_lt.mpr ht.from_base (hsize ▸ ht.has)
  have hempty : ∀ {α : Type} (parent : α → TypeId) (added : List α),
      (∀ a ∈ added, e.graph.Newer d.graph.size (parent a)) → added = [] := fun parent added hnew =>
    List.eq_nil_iff_forall_not_mem.mpr fun a ha => hnone _ (hnew a ha)
  refine ⟨?_, ?_, ?_⟩
  · have hget : ∀ type : TypeId, d.graph.Has type → e.graph.get type = d.graph.get type := by
      intro type htype
      have hjoins := h.types type htype
      obtain ⟨added, hadded, hnew⟩ := hjoins.interfaces
      rw [hempty id added fun marker hm => (hnew marker hm).toNewer, List.append_nil] at hadded
      have hsuper : (e.graph.get type).supertype = (d.graph.get type).supertype :=
        hjoins.supertype.resolve_right fun ⟨_, marker, hmarker, _⟩ =>
          hnone marker hmarker.toNewer
      have hrest := hjoins.rest
      rwa [← hsuper, ← hadded] at hrest
    obtain ⟨added, hadded, hnew⟩ := h.places
    rw [hempty (·.2) added hnew, List.nil_append] at hadded
    exact TypeGraph.ext_get hsize hadded hget
  · obtain ⟨added, hadded, hnew⟩ := h.names
    rw [hempty (fun slot => slot.2.1) added hnew, List.nil_append] at hadded
    exact congrArg NameRegistry.mk hadded
  · obtain ⟨added, hadded, hnew⟩ := h.families
    rw [hadded, hempty (fun family => family.parent) added hnew, List.append_nil]

end Adds

/-- What is declared there stands in none of the older types. -/
def Placement.From (base : Nat) (placement : Placement) : Prop :=
  ∀ owner, placement = .inside owner → base ≤ owner.index

theorem Placement.from_topLevel {base : Nat} : Placement.From base .topLevel := nofun

theorem Placement.from_inside {base : Nat} {type : TypeId} (htype : base ≤ type.index) :
    Placement.From base (.inside type) := fun owner howner => by
  cases howner
  exact htype

namespace Drafting

variable {α β : Type} {ctx : Context} {base least : Nat} {rule : Rule} {d : Draft}

/-- In a graph of at least so many types the step only adds. -/
def Adding (base least : Nat) (x : Drafting α) : Prop :=
  ∀ d : Draft, base ≤ least → least ≤ d.graph.size → Follows (Adds base) x d fun _ _ => True

theorem Adding.pure (a : α) : Adding base least (Pure.pure a) := fun _ _ _ => Follows.pure trivial

theorem Adding.throw (fault : Fault) : Adding base least (MonadExcept.throw fault : Drafting α) :=
  fun _ _ _ => Follows.throw

theorem Adding.lift (e : Except Fault α) : Adding base least (liftM e : Drafting α) :=
  fun _ _ _ => Follows.lift fun _ _ => trivial

theorem Adding.bind {x : Drafting α} {f : α → Drafting β} (hx : Adding base least x)
    (hf : ∀ a, Adding base least (f a)) : Adding base least (x >>= f) :=
  fun d hbase hd => (hx d hbase hd).bind fun a e hde _ =>
    hf a e hbase (Nat.le_trans hd hde.size)

theorem Adding.change {f : Draft → Draft}
    (h : ∀ d : Draft, base ≤ least → least ≤ d.graph.size → Adds base d (f d)) :
    Adding base least (modify f : Drafting Unit) :=
  fun d hbase hd => Follows.change (h d hbase hd) trivial

theorem Adding.read (part : Draft → α) :
    Adding base least (do let draft ← get; Pure.pure (part draft) : Drafting α) :=
  fun d _ _ => Follows.of_repeats (a := part d) rfl trivial

theorem Adding.ite {c : Prop} [Decidable c] {x y : Drafting α} (hx : Adding base least x)
    (hy : Adding base least y) : Adding base least (if c then x else y) := by
  split
  · exact hx
  · exact hy

theorem Adding.check {c : Prop} [Decidable c] {fault : Fault} {x : Unit → Drafting α}
    (hx : Adding base least (x ())) :
    Adding base least (if c then MonadExcept.throw fault >>= x else x ()) :=
  Adding.ite ((Adding.throw _).bind fun _ => hx) hx

theorem Adding.mapM {f : α → Drafting β} {xs : List α} (h : ∀ a ∈ xs, Adding base least (f a)) :
    Adding base least (xs.mapM f) := by
  induction xs with
  | nil => exact Adding.pure []
  | cons x xs ih =>
    rw [List.mapM_cons]
    exact (h x (by simp)).bind fun _ =>
      (ih fun a ha => h a (by simp [ha])).bind fun _ => Adding.pure _

theorem Adding.foldlM {f : β → α → Drafting β} (h : ∀ b a, Adding base least (f b a)) :
    ∀ (xs : List α) (b : β), Adding base least (xs.foldlM f b) := by
  intro xs
  induction xs with
  | nil => exact fun b => Adding.pure b
  | cons x xs ih =>
    intro b
    rw [List.foldlM_cons]
    exact (h b x).bind ih

theorem Adding.forM {f : α → Drafting Unit} {xs : List α} (h : ∀ a, Adding base least (f a)) :
    Adding base least (xs.forM f) := by
  induction xs with
  | nil => exact Adding.pure ()
  | cons x xs ih => exact (h x).bind fun _ => ih

theorem Adding.inStore (action : Store.Action α) : Adding base least (inStore action) := by
  intro d _ _ r e hx _
  rw [run_inStore] at hx
  cases hx
  exact ⟨adds_of_same rfl rfl rfl, fun _ _ => trivial⟩

theorem Adding.node (id : NodeId) : Adding base least (node id) :=
  Adding.read fun draft => draft.store.node id

theorem Adding.child (parent : NodeId) (segments : List String) :
    Adding base least (child ctx parent segments) :=
  Adding.inStore _

/-- The step may write to the types that it was made for. -/
theorem Adding.update {type : TypeId} (hbase : base ≤ type.index) {change : TypeDecl → TypeDecl}
    (hchange : ∀ t, t.subtypes = (change t).subtypes) : Adding base least (update type change) :=
  Adding.change fun _ _ _ => adds_update hbase fun t => (hchange t) ▸ List.Subset.refl _

theorem addMember_adding {merge : NodeId → Drafting NodeId}
    (hmerge : ∀ id, Adding base least (merge id)) (id : NodeId) (sofar : AllOf) (index : Nat) :
    Adding base least (addMember ctx merge id sofar index) := by
  unfold addMember
  refine (Adding.child _ _).bind fun member => (Adding.node _).bind fun target => ?_
  refine Adding.ite (Adding.pure _) (Adding.ite ((hmerge _).bind ?_) ((Adding.pure _).bind ?_))
  all_goals
    exact fun _ => (Adding.node _).bind fun _ => (Adding.lift _).bind fun _ => Adding.pure _

theorem mergeAllOf_adding : ∀ (fuel : Nat) (id : NodeId),
    Adding base least (mergeAllOf ctx fuel id) := by
  intro fuel
  induction fuel with
  | zero => exact fun _ => Adding.throw _
  | succ fuel ih =>
    intro id
    have hstack : ∀ stack : Draft → List NodeId,
        Adding base least (modify fun draft => { draft with merging := stack draft }) :=
      fun _ => Adding.change fun _ _ _ => adds_of_same rfl rfl rfl
    unfold mergeAllOf
    refine (Adding.node _).bind fun schema => (Adding.read fun draft => draft).bind fun _ => ?_
    refine Adding.check ?_
    exact (hstack _).bind fun _ => (Adding.foldlM (addMember_adding ih id) _ _).bind fun _ =>
      (hstack _).bind fun _ => (Adding.lift _).bind fun _ => Adding.inStore _

theorem slot_from {settings : Settings} {g : TypeGraph} {request : Request} {keywords : Keywords}
    {owner : TypeId} (h : request.placement.From base)
    (howner : (slot settings g request keywords).enclosing = some owner) : base ≤ owner.index := by
  unfold slot at howner
  split at howner
  · split at howner <;> cases howner
  · dsimp only at howner
    split at howner
    · cases howner
    · rename_i place hplace
      cases howner
      exact h owner hplace

theorem adds_declared (hbase : base ≤ d.graph.size) {decl : TypeDecl}
    (howner : ∀ owner, decl.enclosing = some owner → base ≤ owner.index) {name : String}
    {place : Location} :
    Adds base d
      { d with
        graph := (d.graph.insert decl).2
        registry := d.registry.record name ⟨d.graph.size⟩ place } := by
  have hnew : (d.graph.insert decl).2.Newer base ⟨d.graph.size⟩ := ⟨hbase, by simp [TypeGraph.Has]⟩
  refine ⟨by simp, fun type => ?_, fun type htype => ?_,
    ⟨[(name, ⟨d.graph.size⟩, place)], rfl, ?_⟩, ⟨[], by simp⟩,
    ⟨[(decl.place, ⟨d.graph.size⟩)], rfl, ?_⟩⟩
  · by_cases hold : d.graph.Has type
    · rw [TypeGraph.get_insert_of_has hold]
      exact List.Subset.refl _
    · rw [TypeGraph.get_of_not_has hold]
      exact List.nil_subset _
  · have hold : d.graph.Has type := Nat.lt_of_lt_of_le htype hbase
    have hlist : (d.graph.insert decl).2.nested type = (d.graph.get type).nested := by
      rw [TypeGraph.nested_insert_of_has hold, if_neg fun h => ?_, List.append_nil]
      · rfl
      · exact absurd (howner type h) (Nat.not_le.mpr htype)
    rw [TypeGraph.get_insert_of_has hold, hlist]
    exact .refl _ _ _
  · exact List.forall_mem_singleton.mpr hnew
  · exact List.forall_mem_singleton.mpr hnew

/-- A type that is declared is a newer one, and the steps after it may write to it. -/
theorem Adding.declare {request : Request} {id : NodeId} {kind : TypeKind}
    {f : Registration → Drafting β} (hfrom : request.placement.From base)
    (hexisting : ∀ type, Adding base least (f (.existing type)))
    (hcreated : ∀ type : TypeId, base ≤ type.index →
      Adding base (type.index + 1) (f (.created type))) :
    Adding base least (declare ctx request id kind >>= f) := by
  intro d hbase hd
  refine Follows.bind (P := fun made e => ∀ type, made = .created type →
    base ≤ type.index ∧ e.graph.Has type) ?_ fun made e hde hmade => ?_
  · unfold Drafting.declare
    refine Follows.after (a := d.store.node id) rfl (Follows.after (a := d) rfl
      (Follows.after (a := d) rfl (Follows.lift_bind fun claim _ => ?_)))
    cases claim with
    | taken type => exact Follows.pure fun _ h => by cases h
    | vacant =>
      refine Follows.lift_bind fun _ _ => Follows.change_bind ?_ (Follows.pure ?_)
      · exact adds_declared (Nat.le_trans hbase hd) fun _ => slot_from hfrom
      · rintro _ ⟨⟩
        exact ⟨Nat.le_trans hbase hd, TypeGraph.has_insert.mpr (.inr rfl)⟩
  · cases made with
    | existing type => exact hexisting type e hbase (Nat.le_trans hd hde.size)
    | created type =>
      obtain ⟨htype, hhas⟩ := hmade type rfl
      exact hcreated type htype e (Nat.le_succ_of_le htype) hhas

theorem Adding.requestFor {found : Store.Child} {name : String} {placement : Placement}
    {f : Request → Drafting β} (hfrom : placement.From base)
    (h : ∀ request : Request, request.placement.From base → Adding base least (f request)) :
    Adding base least (requestFor found name placement >>= f) := by
  intro d hbase hd
  refine Follows.bind (P := fun request _ => request.placement.From base) ?_
    fun request e hde hrequest => h request hrequest e hbase (Nat.le_trans hd hde.size)
  unfold Drafting.requestFor
  split
  · exact Follows.after (a := d.store.node found.id) rfl (Follows.pure Placement.from_topLevel)
  · exact Follows.pure hfrom

/-- The rule only adds, for requests that put nothing into an older type. -/
def RuleAdding (base least : Nat) (rule : Rule) : Prop :=
  ∀ (request : Request) (id : NodeId), request.placement.From base →
    Adding base least (rule request id)

section Filling

variable {type : TypeId}

theorem attachSuperclass_adding (hrule : RuleAdding base least rule)
    (htype : base ≤ type.index) (id : NodeId) (name : String) :
    Adding base least (attachSuperclass ctx rule type id name) := by
  unfold attachSuperclass
  refine (Adding.child _ _).bind fun parent => Adding.requestFor Placement.from_topLevel
    fun request hfrom => (hrule _ _ hfrom).bind fun supertype => (Adding.node _).bind fun _ => ?_
  have hset : Adding base least
      (Drafting.update type fun d => { d with supertype := some supertype }) :=
    Adding.update htype fun _ => rfl
  split
  · refine (Adding.read fun draft => draft).bind fun _ => ?_
    exact Adding.check (Adding.check hset)
  · exact hset
  · exact (Adding.throw _).bind fun _ => hset

theorem addProperty_adding (hrule : RuleAdding base least rule)
    (htype : base ≤ type.index) (id : NodeId) (required : List String) (key : String) :
    Adding base least (addProperty ctx rule type id required key) := by
  unfold addProperty
  refine (Adding.child _ _).bind fun found => (Adding.node _).bind fun _ =>
    Adding.requestFor (Placement.from_inside htype) fun _ hfrom => (hrule _ _ hfrom).bind fun _ =>
      (Adding.read fun draft => draft.graph.get type).bind fun _ => ?_
  split
  · exact Adding.throw _
  · exact Adding.update htype fun _ => rfl

theorem attachAdditionalProperties_adding
    (hrule : RuleAdding base least rule) (htype : base ≤ type.index)
    (id : NodeId) (name : String) (allowed : Option Json) :
    Adding base least (attachAdditionalProperties ctx rule type id name allowed) := by
  unfold attachAdditionalProperties
  refine Adding.ite (Adding.pure _) ?_
  dsimp only
  split
  · exact Adding.pure _
  · exact Adding.update htype fun _ => rfl
  · exact Adding.update htype fun _ => rfl
  · exact Adding.update htype fun _ => rfl
  · exact (Adding.child _ _).bind fun _ => Adding.requestFor (Placement.from_inside htype)
      fun _ hfrom => (hrule _ _ hfrom).bind fun _ => Adding.update htype fun _ => rfl

theorem declareFamily_adding (hrule : RuleAdding base least rule)
    (htype : base ≤ type.index) (hleast : type.index < least) (id : NodeId) (metadata : Json) :
    Adding base least (declareFamily ctx rule type id metadata) := by
  have hchild : ∀ child, Adding base least (familyChild ctx rule id child) := by
    rintro ⟨target | name, tag⟩
    · exact (Adding.inStore _).bind fun _ => (Adding.node _).bind fun _ =>
        (hrule _ _ Placement.from_topLevel).bind fun _ => Adding.pure _
    · exact Adding.pure _
  unfold declareFamily
  refine (Adding.node _).bind fun _ => ?_
  split
  · exact Adding.throw _
  · refine (Adding.mapM fun child _ => hchild child).bind fun _ => ?_
    exact Adding.change fun d _ hd => adds_family ⟨htype, Nat.lt_of_lt_of_le hleast hd⟩

theorem populate_adding (hrule : RuleAdding base least rule)
    (htype : base ≤ type.index) (hleast : type.index < least) (id : NodeId) (name : String) :
    Adding base least (populate ctx rule type id name) := by
  unfold populate
  refine (Adding.node _).bind fun schema => ?_
  -- The rest is the same whether a superclass is attached or not.
  refine Adding.ite ((attachSuperclass_adding hrule htype _ _).bind fun _ => ?_) ?_
  all_goals
    refine (Adding.forM fun _ => addProperty_adding hrule htype _ _ _).bind fun _ =>
      (attachAdditionalProperties_adding hrule htype _ _ _).bind fun _ => ?_
    split
    · exact declareFamily_adding hrule htype hleast _ _
    · exact Adding.pure _

end Filling

theorem enumRule_adding : RuleAdding base least (enumRule ctx) := by
  intro request id hfrom
  unfold enumRule
  refine Adding.declare hfrom (fun _ => Adding.pure _) fun type htype =>
    (Adding.node _).bind fun _ => ?_
  dsimp only
  split
  · exact Adding.throw _
  · exact Adding.bind (Adding.update htype fun _ => rfl) fun _ => Adding.pure _

theorem objectRule_adding (hrule : ∀ least, RuleAdding base least rule) :
    RuleAdding base least (objectRule ctx rule) := by
  intro request id hfrom
  unfold objectRule
  refine Adding.declare hfrom (fun _ => Adding.pure _) fun type htype => ?_
  exact (populate_adding (hrule _) htype (Nat.lt_succ_self _) id _).bind fun _ => Adding.pure _

theorem arrayRule_adding (hrule : RuleAdding base least rule) :
    RuleAdding base least (arrayRule ctx rule) := by
  intro request id hfrom
  unfold arrayRule
  refine (Adding.node _).bind fun _ => ?_
  dsimp only
  split
  · exact Adding.pure _
  · exact Adding.pure _
  · exact (Adding.child _ _).bind fun _ => Adding.requestFor hfrom fun _ hinner =>
      (hrule _ _ hinner).bind fun _ => Adding.pure _

section Branches

variable {request : Request}

theorem branchRule_adding (hrule : RuleAdding base least rule)
    (hfrom : request.placement.From base) (branch : Store.Child) (name : String) :
    Adding base least (branchRule rule request branch name) := by
  unfold branchRule
  exact Adding.requestFor hfrom fun _ hinner => hrule _ _ hinner

theorem collapse_adding (hrule : RuleAdding base least rule)
    (hfrom : request.placement.From base) (found : List Store.Child) :
    Adding base least (collapse rule request found) := by
  unfold collapse
  refine (Adding.mapM fun entry _ => branchRule_adding hrule hfrom entry.1 _).bind fun types => ?_
  split <;> exact Adding.pure _

/-- A link enters the child at the union and changes nothing but the child. -/
theorem adds_link {marker child : TypeId} (hmarker : d.graph.Newer base marker)
    (hne : child ≠ marker) {change : TypeDecl → TypeDecl}
    (hchange : ∀ t, t.subtypes = (change t).subtypes)
    (hjoins : ∀ g : TypeGraph, g.Unites base child marker →
      TypeDecl.Joins g base child (d.graph.get child) (change (d.graph.get child))) :
    Adds base d { d with graph := (d.graph.update child change).update marker fun t =>
      { t with subtypes := Family.addOnce child t.subtypes } } := by
  have hsubset : ∀ t : TypeDecl, t.subtypes ⊆ Family.addOnce child t.subtypes :=
    fun t _ hid => mem_addOnce.mpr (.inr hid)
  have hfirst : ∀ other, (d.graph.get other).subtypes ⊆
      ((d.graph.update child change).get other).subtypes :=
    subtypes_update fun t => (hchange t) ▸ List.Subset.refl _
  refine adds_graph (by simp) rfl
    (fun other => List.Subset.trans (hfirst other) (subtypes_update hsubset other))
    fun type htype => ?_
  have hother : type ≠ marker := by
    rintro rfl
    exact absurd hmarker.from_base (Nat.not_le.mpr htype)
  rw [TypeGraph.get_update_ne hother]
  by_cases hsame : type = child
  · subst hsame
    by_cases hhas : d.graph.Has type
    · rw [TypeGraph.get_update_self hhas]
      refine hjoins _ ⟨⟨hmarker.from_base, by simpa using hmarker.has⟩, ?_⟩
      rw [TypeGraph.get_update_self (by simpa using hmarker.has)]
      exact mem_addOnce.mpr (.inl rfl)
    · rw [TypeGraph.get_of_not_has hhas, TypeGraph.get_of_not_has (by simpa using hhas)]
      exact .refl _ _ _
  · rw [TypeGraph.get_update_ne hsame]
    exact .refl _ _ _

/-- A branch gets a union that was just declared, and only the union learns of the branch. -/
theorem adds_linkBranch {marker : TypeId} (hmarker : d.graph.Newer base marker) (kind : TypeKind)
    (child : TypeId) :
    Adds base d { d with graph := linkBranch d.graph marker kind child } := by
  unfold linkBranch
  split
  · exact adds_of_same rfl rfl rfl
  · rename_i hne
    dsimp only
    split
    · exact adds_link hmarker hne (fun _ => rfl) fun _ hunites => joins_interface hunites _
    · split
      · exact adds_of_same rfl rfl rfl
      · split
        · rename_i hnone
          exact adds_link hmarker hne (fun _ => rfl) fun _ hunites => joins_superclass hunites hnone
        · split
          · exact adds_update hmarker.from_base fun _ _ hid => mem_addOnce.mpr (.inr hid)
          · exact adds_of_same rfl rfl rfl

theorem addBranch_adding (hrule : RuleAdding base least rule)
    (hfrom : request.placement.From base) {marker : TypeId} (hmarker : base ≤ marker.index)
    (hleast : marker.index < least) (kind : TypeKind) (branch : Store.Child × Nat) :
    Adding base least (addBranch rule request marker kind branch) := by
  unfold addBranch
  refine (branchRule_adding hrule hfrom branch.1 _).bind fun type => ?_
  split
  · exact Adding.change fun d _ hd =>
      adds_linkBranch ⟨hmarker, Nat.lt_of_lt_of_le hleast hd⟩ kind _
  · exact Adding.pure _

theorem effectiveShape_adding (fuel : Nat) (id : NodeId) :
    Adding base least (effectiveShape ctx fuel id) := by
  unfold effectiveShape
  refine (Adding.node _).bind fun _ => Adding.ite ?_ (Adding.pure _)
  exact (mergeAllOf_adding fuel id).bind fun _ => (Adding.node _).bind fun _ => Adding.pure _

theorem branches_adding (id : NodeId) (keyword : String) (count : Nat) :
    Adding base least (branches ctx id keyword count) := by
  unfold branches
  refine (Adding.mapM fun _ _ => Adding.child _ _).bind fun all => ?_
  intro d _ _
  have hcounts := Repeats.filterM (s := d)
    (f := fun branch : Store.Child => do Pure.pure ((← node branch.id).shape ≠ .primitive .null))
    (p := fun branch => (d.store.node branch.id).shape ≠ .primitive .null) (fun _ => rfl) all
  exact Follows.of_repeats hcounts trivial

theorem markerOutcome_adding (hrule : ∀ least, RuleAdding base least rule)
    (hfrom : request.placement.From base) (id : NodeId) (k : Keywords) (found : List Store.Child)
    (kind : TypeKind) :
    Adding base least (markerOutcome ctx rule request id k found kind) := by
  unfold markerOutcome
  refine Adding.declare hfrom (fun _ => Adding.pure _) fun marker hmarker => ?_
  have hlast := Nat.lt_succ_self marker.index
  have hlink : Adding base (marker.index + 1) (do
      found.zipIdx.forM (addBranch rule request marker kind)
      Pure.pure (TypeRef.generated marker) : Drafting TypeRef) :=
    (Adding.forM fun branch => addBranch_adding (hrule _) hfrom hmarker hlast kind branch).bind
      fun _ => Adding.pure _
  refine Adding.ite ((populate_adding (hrule _) hmarker hlast id _).bind fun _ => hlink) ?_
  split
  · exact (declareFamily_adding (hrule _) hmarker hlast id _).bind fun _ => hlink
  · exact hlink

end Branches

theorem unionRule_adding (hrule : ∀ least, RuleAdding base least rule) (fuel : Nat) :
    RuleAdding base least (unionRule ctx fuel rule) := by
  intro request id hfrom
  unfold unionRule
  refine (Adding.node _).bind fun schema => (branches_adding id _ _).bind fun found =>
    (Adding.mapM fun _ _ => effectiveShape_adding fuel _).bind fun shapes => ?_
  show Adding base least (unionOutcome ctx rule request id schema.keywords found shapes)
  unfold unionOutcome
  split
  · exact branchRule_adding (hrule _) hfrom _ _
  · exact Adding.ite (collapse_adding (hrule _) hfrom _)
      (markerOutcome_adding hrule hfrom id _ _ _)

theorem shapeRule_adding (hrule : ∀ least, RuleAdding base least rule) (fuel : Nat)
    (shape : Shape) :
    RuleAdding base least (shapeRule ctx fuel rule shape) := by
  intro request id hfrom
  cases shape with
  | allOf => exact (mergeAllOf_adding fuel id).bind fun _ => hrule _ _ _ hfrom
  | union => exact unionRule_adding hrule fuel request id hfrom
  | enumeration => exact enumRule_adding request id hfrom
  | object => exact objectRule_adding hrule request id hfrom
  | array => exact arrayRule_adding (hrule _) request id hfrom
  | primitive type => exact (Adding.node _).bind fun _ => Adding.pure _
  | any => exact Adding.pure _

theorem dispatch_adding : ∀ fuel least : Nat, RuleAdding base least (dispatch ctx fuel) := by
  intro fuel
  induction fuel with
  | zero => exact fun _ _ _ _ => Adding.throw _
  | succ fuel ih =>
    intro least request id hfrom
    rw [dispatch]
    unfold dispatchWith
    refine (Adding.node _).bind fun _ => (Adding.read fun draft => draft).bind fun _ => ?_
    split
    · exact Adding.pure _
    · split
      · exact Adding.pure _
      · exact Adding.pure _
      · exact shapeRule_adding ih _ _ request id hfrom

theorem generate_adding (place : Location) : Adding base least (generate ctx place) := by
  unfold generate
  exact (Adding.inStore _).bind fun _ => (Adding.node _).bind fun _ =>
    (Adding.read fun draft => draft).bind fun _ => dispatch_adding _ _ _ _ Placement.from_topLevel

end Drafting

end SchemaBeans
