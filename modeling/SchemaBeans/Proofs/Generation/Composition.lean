import SchemaBeans.Proofs.Generation.Unions

/-! # What the rules are made of

Every rule is put together from a few steps: it reads the state, looks schemas up, merges them and
writes to the types, the names and the families. What holds of these steps and of steps put together
from others holds of all that is generated. A merge that succeeds takes from the stack what it put
there, so a step that succeeds leaves no merge open. -/
namespace SchemaBeans.Drafting

/-- A property of a compound step that all its parts have. -/
structure Compositional (ctx : Context) (P : ∀ {α : Type}, Drafting α → Prop) : Prop where
  pure {α : Type} (a : α) : P (Pure.pure a)
  throw {α : Type} (fault : Fault) : P (MonadExcept.throw fault : Drafting α)
  bind {α β : Type} {x : Drafting α} {f : α → Drafting β} (hx : P x) (hf : ∀ a, P (f a)) :
    P (x >>= f)
  lift {α : Type} (e : Except Fault α) : P (liftM e : Drafting α)
  read {α : Type} (part : Draft → α) : P (do let draft ← get; Pure.pure (part draft) : Drafting α)
  /-- A change of what was generated so far. -/
  write {f : Draft → Draft} (hstore : ∀ d, (f d).store = d.store)
    (hmerging : ∀ d, (f d).merging = d.merging) : P (modify f : Drafting Unit)
  resolve (place : Location) : P (inStore (Store.resolve ctx.files place))
  reference (source : NodeId) (text : String) :
    P (inStore (Store.resolveReference ctx.files source text))
  child (parent : NodeId) (segments : List String) : P (Drafting.child ctx parent segments)
  merge (fuel : Nat) (id : NodeId) : P (mergeAllOf ctx fuel id)

namespace Compositional

variable {ctx : Context} {P : ∀ {α : Type}, Drafting α → Prop} {α β : Type} {rule : Rule}
  {request : Request} {id : NodeId} {type : TypeId}

theorem ite {c : Prop} [Decidable c] {x y : Drafting α} (hx : P x) (hy : P y) :
    P (if c then x else y) := by
  split
  · exact hx
  · exact hy

section Steps

variable (h : Compositional ctx P)

include h

theorem check {c : Prop} [Decidable c] {fault : Fault} {x : Unit → Drafting α} (hx : P (x ())) :
    P (if c then MonadExcept.throw fault >>= x else x ()) :=
  ite (h.bind (h.throw _) fun _ => hx) hx

theorem mapM {f : α → Drafting β} {xs : List α} (hf : ∀ a, P (f a)) : P (xs.mapM f) := by
  induction xs with
  | nil => exact h.pure []
  | cons x xs ih =>
    rw [List.mapM_cons]
    exact h.bind (hf x) fun _ => h.bind ih fun _ => h.pure _

theorem forM {f : α → Drafting Unit} {xs : List α} (hf : ∀ a, P (f a)) : P (xs.forM f) := by
  induction xs with
  | nil => exact h.pure ()
  | cons x xs ih => exact h.bind (hf x) fun _ => ih

theorem filterM {f : α → Drafting Bool} {xs : List α} (hf : ∀ a, P (f a)) : P (xs.filterM f) := by
  have haux : ∀ (xs done : List α), P (xs.filterAuxM f done) := by
    intro xs
    induction xs with
    | nil => exact fun done => h.pure done
    | cons x xs ih => exact fun done => h.bind (hf x) fun _ => ih _
  exact h.bind (haux xs []) fun _ => h.pure _

theorem node (id : NodeId) : P (Drafting.node id) := h.read fun draft => draft.store.node id

theorem update (type : TypeId) (change : TypeDecl → TypeDecl) : P (Drafting.update type change) :=
  h.write (fun _ => rfl) fun _ => rfl

theorem declare (request : Request) (id : NodeId) (kind : TypeKind) :
    P (Drafting.declare ctx request id kind) := by
  unfold Drafting.declare
  refine h.bind (h.node id) fun schema => h.bind (h.read fun draft => draft) fun _ =>
    h.bind (h.read fun draft => draft) fun _ => h.bind (h.lift _) fun claim => ?_
  cases claim with
  | taken id => exact h.pure _
  | vacant =>
    exact h.bind (h.lift _) fun _ => h.bind (h.write (fun _ => rfl) fun _ => rfl) fun _ => h.pure _

theorem requestFor (found : Store.Child) (name : String) (placement : Placement) :
    P (Drafting.requestFor found name placement) :=
  ite (h.bind (h.node _) fun _ => h.pure _) (h.pure _)

end Steps

section Rules

variable (h : Compositional ctx P) (hrule : ∀ request id, P (rule request id))

include h hrule

theorem attachSuperclass (type : TypeId) (id : NodeId) (name : String) :
    P (Drafting.attachSuperclass ctx rule type id name) := by
  unfold Drafting.attachSuperclass
  refine h.bind (h.child _ _) fun parent => h.bind (h.requestFor _ _ _) fun request =>
    h.bind (hrule _ _) fun supertype => h.bind (h.node _) fun _ => ?_
  have hset := h.update type fun d => { d with supertype := some supertype }
  split
  · exact h.bind (h.read fun draft => draft) fun _ => h.check (h.check hset)
  · exact hset
  · exact h.bind (h.throw _) fun _ => hset

theorem addProperty (type : TypeId) (id : NodeId) (required : List String) (key : String) :
    P (Drafting.addProperty ctx rule type id required key) := by
  unfold Drafting.addProperty
  refine h.bind (h.child _ _) fun found => h.bind (h.node _) fun _ =>
    h.bind (h.requestFor _ _ _) fun _ => h.bind (hrule _ _) fun _ =>
      h.bind (h.read fun draft => draft.graph.get type) fun _ => ?_
  split
  · exact h.throw _
  · exact h.update _ _

theorem attachAdditionalProperties (type : TypeId) (id : NodeId) (name : String)
    (allowed : Option Json) :
    P (Drafting.attachAdditionalProperties ctx rule type id name allowed) := by
  unfold Drafting.attachAdditionalProperties
  refine ite (h.pure _) ?_
  dsimp only
  split
  · exact h.pure _
  · exact h.update _ _
  · exact h.update _ _
  · exact h.update _ _
  · exact h.bind (h.child _ _) fun _ => h.bind (h.requestFor _ _ _) fun _ =>
      h.bind (hrule _ _) fun _ => h.update _ _

theorem declareFamily (type : TypeId) (id : NodeId) (metadata : Json) :
    P (Drafting.declareFamily ctx rule type id metadata) := by
  have hchild : ∀ child, P (familyChild ctx rule id child) := by
    rintro ⟨target | name, tag⟩
    · exact h.bind (h.reference _ _) fun _ => h.bind (h.node _) fun _ =>
        h.bind (hrule _ _) fun _ => h.pure _
    · exact h.pure _
  unfold Drafting.declareFamily
  refine h.bind (h.node _) fun _ => ?_
  split
  · exact h.throw _
  · exact h.bind (h.mapM hchild) fun _ => h.write (fun _ => rfl) fun _ => rfl

theorem populate (type : TypeId) (id : NodeId) (name : String) :
    P (Drafting.populate ctx rule type id name) := by
  unfold Drafting.populate
  refine h.bind (h.node _) fun schema => ?_
  -- The rest is the same whether a superclass is attached or not.
  refine ite (h.bind (h.attachSuperclass hrule _ _ _) fun _ => ?_) ?_
  all_goals
    refine h.bind (h.forM fun _ => h.addProperty hrule _ _ _ _) fun _ =>
      h.bind (h.attachAdditionalProperties hrule _ _ _ _) fun _ => ?_
    split
    · exact h.declareFamily hrule _ _ _
    · exact h.pure _

theorem objectRule (request : Request) (id : NodeId) :
    P (Drafting.objectRule ctx rule request id) := by
  unfold Drafting.objectRule
  refine h.bind (h.declare _ _ _) fun made => ?_
  cases made with
  | existing type => exact h.pure _
  | created type => exact h.bind (h.populate hrule _ _ _) fun _ => h.pure _

theorem arrayRule (request : Request) (id : NodeId) :
    P (Drafting.arrayRule ctx rule request id) := by
  unfold Drafting.arrayRule
  refine h.bind (h.node _) fun _ => ?_
  dsimp only
  split
  · exact h.pure _
  · exact h.pure _
  · exact h.bind (h.child _ _) fun _ => h.bind (h.requestFor _ _ _) fun _ =>
      h.bind (hrule _ _) fun _ => h.pure _

theorem branchRule (request : Request) (branch : Store.Child) (name : String) :
    P (Drafting.branchRule rule request branch name) :=
  h.bind (h.requestFor _ _ _) fun _ => hrule _ _

theorem collapse (request : Request) (found : List Store.Child) :
    P (Drafting.collapse rule request found) := by
  unfold Drafting.collapse
  refine h.bind (h.mapM fun entry => h.branchRule hrule request entry.1 _) fun types => ?_
  split <;> exact h.pure _

theorem addBranch (request : Request) (marker : TypeId) (kind : TypeKind)
    (branch : Store.Child × Nat) :
    P (Drafting.addBranch rule request marker kind branch) := by
  unfold Drafting.addBranch
  refine h.bind (h.branchRule hrule request branch.1 _) fun type => ?_
  split
  · exact h.write (fun _ => rfl) fun _ => rfl
  · exact h.pure _

theorem markerOutcome (request : Request) (id : NodeId) (k : Keywords)
    (found : List Store.Child) (kind : TypeKind) :
    P (Drafting.markerOutcome ctx rule request id k found kind) := by
  unfold Drafting.markerOutcome
  refine h.bind (h.declare _ _ _) fun made => ?_
  cases made with
  | existing type => exact h.pure _
  | created marker =>
    have hlink : P (do
        found.zipIdx.forM (Drafting.addBranch rule request marker kind)
        Pure.pure (TypeRef.generated marker) : Drafting TypeRef) :=
      h.bind (h.forM fun branch => h.addBranch hrule request marker kind branch) fun _ => h.pure _
    refine ite (h.bind (h.populate hrule _ _ _) fun _ => hlink) ?_
    split
    · exact h.bind (h.declareFamily hrule _ _ _) fun _ => hlink
    · exact hlink

theorem unionRule (fuel : Nat) (request : Request) (id : NodeId) :
    P (Drafting.unionRule ctx fuel rule request id) := by
  have hshape : ∀ id, P (effectiveShape ctx fuel id) := fun id =>
    h.bind (h.node _) fun _ => ite (h.bind (h.merge _ _) fun _ => h.bind (h.node _) fun _ =>
      h.pure _) (h.pure _)
  have hbranches : ∀ keyword count, P (branches ctx id keyword count) := fun keyword count =>
    h.bind (h.mapM fun _ => h.child _ _) fun _ => h.filterM fun _ =>
      h.bind (h.node _) fun _ => h.pure _
  unfold Drafting.unionRule
  refine h.bind (h.node _) fun schema => h.bind (hbranches _ _) fun found =>
    h.bind (h.mapM fun _ => hshape _) fun shapes => ?_
  show P (unionOutcome ctx rule request id schema.keywords found shapes)
  unfold unionOutcome
  split
  · exact h.branchRule hrule request _ _
  · exact ite (h.collapse hrule request _) (h.markerOutcome hrule request id _ _ _)

theorem shapeRule (fuel : Nat) (shape : Shape) (request : Request) (id : NodeId) :
    P (Drafting.shapeRule ctx fuel rule shape request id) := by
  cases shape with
  | allOf => exact h.bind (h.merge fuel id) fun _ => hrule _ _
  | union => exact h.unionRule hrule fuel request id
  | enumeration =>
    show P (enumRule ctx request id)
    unfold enumRule
    refine h.bind (h.declare _ _ _) fun made => ?_
    cases made with
    | existing type => exact h.pure _
    | created type =>
      refine h.bind (h.node _) fun _ => ?_
      dsimp only
      split
      · exact h.throw _
      · exact h.bind (h.update _ _) fun _ => h.pure _
  | object => exact h.objectRule hrule request id
  | array => exact h.arrayRule hrule request id
  | primitive type => exact h.bind (h.node _) fun _ => h.pure _
  | any => exact h.pure _

end Rules

variable (h : Compositional ctx P)

include h

theorem dispatch : ∀ (fuel : Nat) (request : Request) (id : NodeId),
    P (Drafting.dispatch ctx fuel request id) := by
  intro fuel
  induction fuel with
  | zero => exact fun _ _ => h.throw _
  | succ fuel ih =>
    intro request id
    rw [Drafting.dispatch]
    unfold dispatchWith
    refine h.bind (h.node _) fun _ => h.bind (h.read fun draft => draft) fun _ => ?_
    split
    · exact h.pure _
    · split
      · exact h.pure _
      · exact h.pure _
      · exact h.shapeRule ih _ _ request id

theorem generate (place : Location) : P (Drafting.generate ctx place) := by
  unfold Drafting.generate
  exact h.bind (h.resolve _) fun _ => h.bind (h.node _) fun _ =>
    h.bind (h.read fun draft => draft) fun _ => h.dispatch _ _ _

end Compositional

/-- If the step succeeds, the stack of open merges is as it was. -/
def Balanced {α : Type} (x : Drafting α) : Prop :=
  ∀ d, Yields x d fun _ e => e.merging = d.merging

section Balanced

variable {α β : Type} {ctx : Context}

theorem Balanced.pure (a : α) : Balanced (Pure.pure a : Drafting α) := fun _ => Follows.pure rfl

theorem Balanced.lift (r : Except Fault α) : Balanced (liftM r : Drafting α) :=
  fun _ => Follows.lift fun _ _ => rfl

theorem Balanced.read (part : Draft → α) :
    Balanced (do let draft ← get; Pure.pure (part draft) : Drafting α) :=
  fun d => Follows.of_repeats (a := part d) rfl rfl

theorem Balanced.write {f : Draft → Draft} (hmerging : ∀ d, (f d).merging = d.merging) :
    Balanced (modify f : Drafting Unit) := fun d => Follows.change trivial (hmerging d)

theorem Balanced.bind {x : Drafting α} {f : α → Drafting β} (hx : Balanced x)
    (hf : ∀ a, Balanced (f a)) : Balanced (x >>= f) :=
  fun d => (hx d).bind fun a e _ he => (hf a e).imp fun _ _ _ ht => ht.trans he

theorem Balanced.inStore (action : Store.Action α) : Balanced (inStore action) := by
  intro d r e hx _
  rw [run_inStore] at hx
  cases hx
  exact ⟨trivial, fun _ _ => rfl⟩

theorem Balanced.foldlM {f : β → α → Drafting β} (hf : ∀ b a, Balanced (f b a)) :
    ∀ (xs : List α) (b : β), Balanced (xs.foldlM f b) := by
  intro xs
  induction xs with
  | nil => exact fun b => Balanced.pure b
  | cons x xs ih =>
    intro b
    rw [List.foldlM_cons]
    exact (hf b x).bind ih

theorem addMember_balanced {merge : NodeId → Drafting NodeId} (hmerge : ∀ id, Balanced (merge id))
    (id : NodeId) (sofar : AllOf) (index : Nat) :
    Balanced (addMember ctx merge id sofar index) := by
  have hnode : ∀ id, Balanced (node id) := fun id => Balanced.read fun draft => draft.store.node id
  unfold addMember
  refine (Balanced.inStore _).bind fun member => (hnode _).bind fun target => ?_
  refine Compositional.ite (Balanced.pure _) (Compositional.ite ((hmerge _).bind ?_)
    ((Balanced.pure _).bind ?_))
  all_goals
    exact fun _ => (hnode _).bind fun _ => (Balanced.lift _).bind fun _ => Balanced.pure _

theorem mergeAllOf_balanced : ∀ (fuel : Nat) (id : NodeId), Balanced (mergeAllOf ctx fuel id) := by
  intro fuel
  induction fuel with
  | zero => exact fun _ _ => Follows.throw
  | succ fuel ih =>
    intro id d
    unfold mergeAllOf
    refine Follows.after (a := d.store.node id) rfl (Follows.after (a := d) rfl ?_)
    have hmerge : Yields (do
        modify fun draft : Draft => { draft with merging := id :: draft.merging }
        let schema := d.store.node id
        let own := ownContent schema.content
        let start : AllOf := ⟨.object [], (own.member? "extends").isSome, none⟩
        let all ← (List.range (schema.keywords.allOf.getD []).length).foldlM
          (addMember ctx (mergeAllOf ctx fuel) id) start
        modify fun draft : Draft => { draft with merging := draft.merging.tail }
        let own ← (own.anchor schema.location.document : Except Fault Json)
        inStore (Store.synthesize ctx.files (schema.location.below ["allOf"]) id
          ((extended all.parent all.merged).merge own))) d fun _ e => e.merging = d.merging := by
      refine Follows.change_bind trivial ?_
      refine (Balanced.foldlM (addMember_balanced ih id) _ _ _).bind fun all e _ he => ?_
      refine Follows.change_bind trivial (Follows.lift_bind fun own _ => ?_)
      refine (Balanced.inStore _ _).imp fun _ t _ ht => ht.trans ?_
      exact congrArg List.tail he
    by_cases hbar : id ∈ d.merging
    · simp only [List.contains_iff_mem, hbar, if_true]
      exact Follows.throw_bind
    · simpa only [List.contains_iff_mem, hbar, if_false] using hmerge

theorem compositional_balanced (ctx : Context) : Compositional ctx Balanced where
  pure := .pure
  throw _ _ := Follows.throw
  bind := .bind
  lift := .lift
  read := .read
  write _ := .write
  resolve _ := .inStore _
  reference _ _ := .inStore _
  child _ _ := .inStore _
  merge := mergeAllOf_balanced

end Balanced

end SchemaBeans.Drafting
