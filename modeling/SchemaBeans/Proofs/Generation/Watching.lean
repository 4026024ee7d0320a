import SchemaBeans.Proofs.Generation.Consistency
import SchemaBeans.Proofs.Generation.Unions
import SchemaBeans.Proofs.TypeGraph.Climbing

/-! # Generation under watch

The superclasses of a type are looked through right after a schema inside another one was generated,
before anything else is written. A watch kept before and after every schema inside another one is
there at each of these lookups. If it minds nothing but a cycle of superclasses, then it never minds
anything: each link is made just after a look through the chain that it would close. -/
namespace SchemaBeans.Drafting

/-- Stops a run with the fault where the superclasses of some type do not come to an end. -/
def minding (fault : Fault) : Drafting Unit := do
  if (← get).graph.Climbable then pure () else throw fault

/-- The dispatch of a schema, with a watch kept before and after every schema inside it. -/
def watched (ctx : Context) (watch : Drafting Unit) : Nat → Rule
  | 0 => fun _ _ => throw .endless
  | fuel + 1 => dispatchWith ctx (fuel + 1) fun request id => do
    watch
    let type ← watched ctx watch fuel request id
    watch
    pure type

/-- The generation of a place under watch, as deep as `levels` allows. -/
def generateWatched (ctx : Context) (watch : Drafting Unit) (levels : Draft → Nat)
    (place : Location) : Drafting TypeRef := do
  let id ← inStore (Store.resolve ctx.files place)
  let name := (← node id).location.name
  watched ctx watch (levels (← get)) ⟨name, .topLevel⟩ id

theorem watched_pure (ctx : Context) :
    ∀ fuel : Nat, watched ctx (pure ()) fuel = dispatch ctx fuel := by
  intro fuel
  induction fuel with
  | zero => rfl
  | succ fuel ih =>
    rw [watched, dispatch, ih]
    simp only [pure_bind, bind_pure]

theorem generateWatched_pure (ctx : Context) (place : Location) :
    generateWatched ctx (pure ()) (depth ctx) place = generate ctx place := by
  unfold generateWatched generate
  simp only [watched_pure]

/-- The two steps do the same from this state, and they leave an acyclic graph. -/
def AgreesAt {α : Type} (d : Draft) (x y : Drafting α) : Prop :=
  x.run d = y.run d ∧ (y.run d).2.graph.Acyclic

/-- The two steps agree wherever no type is on its own chain of superclasses. -/
def Agrees {α : Type} (x y : Drafting α) : Prop := ∀ d, d.graph.Acyclic → AgreesAt d x y

section Steps

variable {α β : Type} {ctx : Context} {x y : Drafting α} {d : Draft}

theorem AgreesAt.change {f : Draft → Draft} (h : (f d).graph.Acyclic) :
    AgreesAt d (modify f : Drafting Unit) (modify f) := ⟨rfl, h⟩

theorem Agrees.pure (a : α) : Agrees (Pure.pure a : Drafting α) (Pure.pure a) :=
  fun _ hd => ⟨rfl, hd⟩

theorem Agrees.throw (fault : Fault) :
    Agrees (MonadExcept.throw fault : Drafting α) (MonadExcept.throw fault) :=
  fun _ hd => ⟨rfl, hd⟩

theorem Agrees.lift (e : Except Fault α) : Agrees (liftM e : Drafting α) (liftM e) :=
  fun _ hd => ⟨rfl, hd⟩

theorem Agrees.read (part : Draft → α) :
    Agrees (do let draft ← get; Pure.pure (part draft) : Drafting α)
      (do let draft ← get; Pure.pure (part draft)) :=
  fun _ hd => ⟨rfl, hd⟩

theorem Agrees.node (id : NodeId) : Agrees (Drafting.node id) (Drafting.node id) :=
  Agrees.read fun draft => draft.store.node id

/-- A step may depend on the state it finds. -/
theorem Agrees.get {f g : Draft → Drafting β} (h : ∀ d, d.graph.Acyclic → AgreesAt d (f d) (g d)) :
    Agrees (MonadState.get >>= f) (MonadState.get >>= g) := h

theorem Agrees.inStore (action : Store.Action α) :
    Agrees (Drafting.inStore action) (Drafting.inStore action) := by
  intro d hd
  refine ⟨rfl, ?_⟩
  rw [run_inStore]
  exact hd

theorem Agrees.change {f : Draft → Draft} (h : ∀ d, d.graph.Acyclic → (f d).graph.Acyclic) :
    Agrees (modify f : Drafting Unit) (modify f) :=
  fun d hd => .change (h d hd)

theorem Agrees.stack (f : List NodeId → List NodeId) :
    Agrees (modify fun draft : Draft => { draft with merging := f draft.merging } : Drafting Unit)
      (modify fun draft : Draft => { draft with merging := f draft.merging }) :=
  Agrees.change fun _ hd => hd

theorem Agrees.update (id : TypeId) {change : TypeDecl → TypeDecl}
    (h : ∀ t, (change t).superclass? = t.superclass?) :
    Agrees (Drafting.update id change) (Drafting.update id change) :=
  Agrees.change fun _ hd => hd.update id (h _)

theorem Agrees.bind {f g : α → Drafting β} (h : Agrees x y) (k : ∀ a, Agrees (f a) (g a)) :
    Agrees (x >>= f) (y >>= g) := by
  intro d hd
  obtain ⟨hsame, hleft⟩ := h d hd
  unfold AgreesAt
  rw [run_bind, run_bind, hsame]
  rcases hrun : y.run d with ⟨o, e⟩
  rw [hrun] at hleft
  cases o with
  | error fault => exact ⟨rfl, hleft⟩
  | ok a => exact k a e hleft

theorem Agrees.ite {c : Prop} [Decidable c] {x' y' : Drafting α} (h : Agrees x y)
    (k : Agrees x' y') : Agrees (if c then x else x') (if c then y else y') := by
  by_cases hc : c
  · rw [if_pos hc, if_pos hc]
    exact h
  · rw [if_neg hc, if_neg hc]
    exact k

/-- A check that fails is a fault. -/
theorem Agrees.check {c : Prop} [Decidable c] {fault : Fault} {f g : Unit → Drafting α}
    (h : Agrees (f ()) (g ())) :
    Agrees (if c then MonadExcept.throw fault >>= f else f ())
      (if c then MonadExcept.throw fault >>= g else g ()) :=
  .ite (fun _ hd => ⟨rfl, hd⟩) h

theorem Agrees.mapM {f g : α → Drafting β} (h : ∀ a, Agrees (f a) (g a)) :
    ∀ xs : List α, Agrees (xs.mapM f) (xs.mapM g) := by
  intro xs
  induction xs with
  | nil => exact Agrees.pure []
  | cons a xs ih =>
    rw [List.mapM_cons, List.mapM_cons]
    exact (h a).bind fun b => ih.bind fun bs => Agrees.pure (b :: bs)

theorem Agrees.forM {f g : α → Drafting Unit} (h : ∀ a, Agrees (f a) (g a)) :
    ∀ xs : List α, Agrees (xs.forM f) (xs.forM g) := by
  intro xs
  induction xs with
  | nil => exact Agrees.pure ()
  | cons a xs ih => exact (h a).bind fun _ => ih

theorem Agrees.foldlM {f g : β → α → Drafting β} (h : ∀ b a, Agrees (f b a) (g b a)) :
    ∀ (xs : List α) (b : β), Agrees (xs.foldlM f b) (xs.foldlM g b) := by
  intro xs
  induction xs with
  | nil => exact fun b => Agrees.pure b
  | cons a xs ih =>
    intro b
    rw [List.foldlM_cons, List.foldlM_cons]
    exact (h b a).bind ih

theorem Agrees.filterM {f : α → Drafting Bool} (h : ∀ a, Agrees (f a) (f a)) (xs : List α) :
    Agrees (xs.filterM f) (xs.filterM f) := by
  have haux : ∀ (xs done : List α), Agrees (xs.filterAuxM f done) (xs.filterAuxM f done) := by
    intro xs
    induction xs with
    | nil => exact fun done => Agrees.pure done
    | cons a xs ih => exact fun done => (h a).bind fun _ => ih _
  exact (haux xs []).bind fun _ => Agrees.pure _

theorem Agrees.requestFor (found : Store.Child) (name : String) (placement : Placement) :
    Agrees (Drafting.requestFor found name placement) (Drafting.requestFor found name placement) :=
  .ite ((Agrees.node _).bind fun _ => Agrees.pure _) (Agrees.pure _)

theorem Agrees.child (parent : NodeId) (segments : List String) :
    Agrees (Drafting.child ctx parent segments) (Drafting.child ctx parent segments) :=
  Agrees.inStore _

/-- A new type extends nothing. -/
theorem Agrees.declare (request : Request) (id : NodeId) (kind : TypeKind) :
    Agrees (Drafting.declare ctx request id kind) (Drafting.declare ctx request id kind) := by
  unfold Drafting.declare
  refine (Agrees.node id).bind fun schema => Agrees.get fun d hd => ?_
  refine Agrees.get (fun e _ => Agrees.bind (Agrees.lift _) (fun claim => ?_) e ‹_›) d hd
  cases claim with
  | taken type => exact Agrees.pure _
  | vacant =>
    refine (Agrees.lift _).bind fun _ => Agrees.bind (Agrees.change fun _ _ => ?_) fun _ =>
      Agrees.pure _
    exact TypeGraph.acyclic_insert hd rfl

theorem Agrees.mergeAllOf : ∀ (fuel : Nat) (id : NodeId),
    Agrees (Drafting.mergeAllOf ctx fuel id) (Drafting.mergeAllOf ctx fuel id) := by
  intro fuel
  induction fuel with
  | zero => exact fun _ => Agrees.throw _
  | succ fuel ih =>
    intro id
    have hmember : ∀ sofar index,
        Agrees (addMember ctx (Drafting.mergeAllOf ctx fuel) id sofar index)
          (addMember ctx (Drafting.mergeAllOf ctx fuel) id sofar index) := by
      intro sofar index
      unfold addMember
      refine (Agrees.child _ _).bind fun member => (Agrees.node _).bind fun target =>
        .ite (Agrees.pure _) (.ite ((ih _).bind ?_) ((Agrees.pure _).bind ?_))
      all_goals
        exact fun _ => (Agrees.node _).bind fun _ => (Agrees.lift _).bind fun _ => Agrees.pure _
    unfold Drafting.mergeAllOf
    refine (Agrees.node id).bind fun schema => (Agrees.read fun draft => draft).bind fun _ =>
      Agrees.check ?_
    exact (Agrees.stack (id :: ·)).bind fun _ => (Agrees.foldlM hmember _ _).bind fun all =>
      (Agrees.stack List.tail).bind fun _ => (Agrees.lift _).bind fun own => Agrees.inStore _

end Steps

section Rules

variable {ctx : Context} {rule other : Rule}

/-- The chain of a generated superclass was looked through in the state that gets the link. -/
theorem Agrees.attachSuperclass (hrule : ∀ request id, Agrees (rule request id) (other request id))
    (type : TypeId) (id : NodeId) (name : String) :
    Agrees (Drafting.attachSuperclass ctx rule type id name)
      (Drafting.attachSuperclass ctx other type id name) := by
  unfold Drafting.attachSuperclass
  refine (Agrees.child _ _).bind fun parent => (Agrees.requestFor _ _ _).bind fun request =>
    (hrule _ _).bind fun supertype => (Agrees.node _).bind fun schema => ?_
  cases supertype with
  | generated parentType =>
    refine Agrees.get fun d hd => ?_
    by_cases hkind : (d.graph.get parentType).kind ≠ .bean
    · simp only [if_pos hkind]
      exact ⟨rfl, hd⟩
    · simp only [if_neg hkind]
      by_cases hcycle : d.graph.inherits parentType type = true
      · simp only [if_pos hcycle]
        exact ⟨rfl, hd⟩
      · simp only [if_neg hcycle]
        exact AgreesAt.change (hd.update_superclass rfl (by simpa using hcycle))
  | library name => exact Agrees.change fun _ hd => hd.update_no_superclass rfl
  | _ => exact (Agrees.throw _).bind fun _ => Agrees.change fun _ hd => hd.update_no_superclass rfl

theorem Agrees.addProperty (hrule : ∀ request id, Agrees (rule request id) (other request id))
    (type : TypeId) (id : NodeId) (required : List String) (key : String) :
    Agrees (Drafting.addProperty ctx rule type id required key)
      (Drafting.addProperty ctx other type id required key) := by
  unfold Drafting.addProperty
  refine (Agrees.child _ _).bind fun found => (Agrees.node _).bind fun _ =>
    (Agrees.requestFor _ _ _).bind fun _ => (hrule _ _).bind fun _ =>
      (Agrees.read fun draft => draft.graph.get type).bind fun owner => ?_
  dsimp only
  cases owner.property? _ with
  | some first => exact Agrees.throw _
  | none => exact Agrees.update _ fun _ => rfl

theorem Agrees.attachAdditionalProperties
    (hrule : ∀ request id, Agrees (rule request id) (other request id))
    (type : TypeId) (id : NodeId) (name : String) (allowed : Option Json) :
    Agrees (Drafting.attachAdditionalProperties ctx rule type id name allowed)
      (Drafting.attachAdditionalProperties ctx other type id name allowed) := by
  have hset : ∀ value : TypeRef, Agrees
      (Drafting.update type fun d => { d with additionalProperties := some value })
      (Drafting.update type fun d => { d with additionalProperties := some value }) :=
    fun value => Agrees.update _ fun _ => rfl
  unfold Drafting.attachAdditionalProperties
  refine Agrees.ite (Agrees.pure _) ?_
  dsimp only
  split
  · exact Agrees.pure _
  · exact hset _
  · exact hset _
  · exact hset _
  · exact (Agrees.child _ _).bind fun _ => (Agrees.requestFor _ _ _).bind fun _ =>
      (hrule _ _).bind fun _ => hset _

theorem Agrees.declareFamily (hrule : ∀ request id, Agrees (rule request id) (other request id))
    (type : TypeId) (id : NodeId) (metadata : Json) :
    Agrees (Drafting.declareFamily ctx rule type id metadata)
      (Drafting.declareFamily ctx other type id metadata) := by
  have hchild : ∀ child, Agrees (familyChild ctx rule id child)
    (familyChild ctx other id child) := by
    rintro ⟨target | name, tag⟩
    · exact (Agrees.inStore _).bind fun _ => (Agrees.node _).bind fun _ =>
        (hrule _ _).bind fun _ => Agrees.pure _
    · exact Agrees.pure _
  unfold Drafting.declareFamily
  refine (Agrees.node _).bind fun _ => ?_
  dsimp only
  split
  · exact Agrees.throw _
  · exact (Agrees.mapM hchild _).bind fun _ => Agrees.change fun _ hd => hd

theorem Agrees.populate (hrule : ∀ request id, Agrees (rule request id) (other request id))
    (type : TypeId) (id : NodeId) (name : String) :
    Agrees (Drafting.populate ctx rule type id name)
    (Drafting.populate ctx other type id name) := by
  unfold Drafting.populate
  refine (Agrees.node _).bind fun schema => ?_
  -- The rest is the same whether a superclass is attached or not.
  refine Agrees.ite ((Agrees.attachSuperclass hrule _ _ _).bind fun _ => ?_) ?_
  all_goals
    refine (Agrees.forM (fun _ => Agrees.addProperty hrule _ _ _ _) _).bind fun _ =>
      (Agrees.attachAdditionalProperties hrule _ _ _ _).bind fun _ => ?_
    split
    · exact Agrees.declareFamily hrule _ _ _
    · exact Agrees.pure _

theorem Agrees.enumRule (request : Request) (id : NodeId) :
    Agrees (Drafting.enumRule ctx request id) (Drafting.enumRule ctx request id) := by
  unfold Drafting.enumRule
  refine (Agrees.declare _ _ _).bind fun made => ?_
  cases made with
  | existing type => exact Agrees.pure _
  | created type =>
    refine (Agrees.node _).bind fun _ => ?_
    dsimp only
    split
    · exact Agrees.throw _
    · exact Agrees.bind (Agrees.update _ fun _ => rfl) fun _ => Agrees.pure _

theorem Agrees.objectRule (hrule : ∀ request id, Agrees (rule request id) (other request id))
    (request : Request) (id : NodeId) :
    Agrees (Drafting.objectRule ctx rule request id)
    (Drafting.objectRule ctx other request id) := by
  unfold Drafting.objectRule
  refine (Agrees.declare _ _ _).bind fun made => ?_
  cases made with
  | existing type => exact Agrees.pure _
  | created type => exact (Agrees.populate hrule _ _ _).bind fun _ => Agrees.pure _

theorem Agrees.arrayRule (hrule : ∀ request id, Agrees (rule request id) (other request id))
    (request : Request) (id : NodeId) :
    Agrees (Drafting.arrayRule ctx rule request id) (Drafting.arrayRule ctx other request id) := by
  unfold Drafting.arrayRule
  refine (Agrees.node _).bind fun _ => ?_
  dsimp only
  split
  · exact Agrees.pure _
  · exact Agrees.pure _
  · exact (Agrees.child _ _).bind fun _ => (Agrees.requestFor _ _ _).bind fun _ =>
      (hrule _ _).bind fun _ => Agrees.pure _

theorem Agrees.branchRule (hrule : ∀ request id, Agrees (rule request id) (other request id))
    (request : Request) (branch : Store.Child) (name : String) :
    Agrees (Drafting.branchRule rule request branch name)
      (Drafting.branchRule other request branch name) :=
  (Agrees.requestFor _ _ _).bind fun _ => hrule _ _

theorem Agrees.collapse (hrule : ∀ request id, Agrees (rule request id) (other request id))
    (request : Request) (found : List Store.Child) :
    Agrees (Drafting.collapse rule request found) (Drafting.collapse other request found) := by
  unfold Drafting.collapse
  refine Agrees.bind (Agrees.mapM (fun (entry : Store.Child × Nat) =>
    Agrees.branchRule hrule request entry.1 _) _) fun types => ?_
  cases types with
  | cons first others => exact Agrees.pure _
  | nil => exact Agrees.pure _

theorem acyclic_linkBranch {g : TypeGraph} (hg : g.Acyclic) (marker : TypeId) (kind : TypeKind)
    (child : TypeId) : (linkBranch g marker kind child).Acyclic := by
  obtain hsame | ⟨change, hlink, -, -, -, hchange⟩ := linkBranch_cases g marker kind child
  · rwa [hsame]
  · rw [hlink]
    refine TypeGraph.Acyclic.update ?_ marker rfl
    rcases hchange with ⟨-, hsuper⟩ | ⟨-, hfree, hsuper⟩
    · exact hg.update child (by rw [TypeDecl.superclass?, hsuper]; rfl)
    · exact hg.update_superclass (by rw [TypeDecl.superclass?, hsuper]) hfree

theorem Agrees.addBranch (hrule : ∀ request id, Agrees (rule request id) (other request id))
    (request : Request) (marker : TypeId) (kind : TypeKind) (branch : Store.Child × Nat) :
    Agrees (Drafting.addBranch rule request marker kind branch)
      (Drafting.addBranch other request marker kind branch) := by
  unfold Drafting.addBranch
  refine (Agrees.branchRule hrule request branch.1 _).bind fun type => ?_
  cases type with
  | generated child => exact Agrees.change fun _ hd => acyclic_linkBranch hd marker kind child
  | _ => exact Agrees.pure _

theorem Agrees.markerOutcome (hrule : ∀ request id, Agrees (rule request id) (other request id))
    (request : Request) (id : NodeId) (k : Keywords) (found : List Store.Child) (kind : TypeKind) :
    Agrees (Drafting.markerOutcome ctx rule request id k found kind)
      (Drafting.markerOutcome ctx other request id k found kind) := by
  unfold Drafting.markerOutcome
  refine (Agrees.declare _ _ _).bind fun made => ?_
  cases made with
  | existing type => exact Agrees.pure _
  | created marker =>
    have hlink : Agrees (do
        found.zipIdx.forM (Drafting.addBranch rule request marker kind)
        Pure.pure (TypeRef.generated marker) : Drafting TypeRef) (do
        found.zipIdx.forM (Drafting.addBranch other request marker kind)
        Pure.pure (TypeRef.generated marker)) :=
      (Agrees.forM (fun branch => Agrees.addBranch hrule request marker kind branch) _).bind
        fun _ => Agrees.pure _
    refine Agrees.ite ((Agrees.populate hrule _ _ _).bind fun _ => hlink) ?_
    split
    · exact (Agrees.declareFamily hrule _ _ _).bind fun _ => hlink
    · exact hlink

theorem Agrees.unionRule (hrule : ∀ request id, Agrees (rule request id) (other request id))
    (fuel : Nat) (request : Request) (id : NodeId) :
    Agrees (Drafting.unionRule ctx fuel rule request id)
      (Drafting.unionRule ctx fuel other request id) := by
  have hshape : ∀ id, Agrees (effectiveShape ctx fuel id) (effectiveShape ctx fuel id) := fun id =>
    (Agrees.node _).bind fun _ => .ite ((Agrees.mergeAllOf _ _).bind fun _ =>
      (Agrees.node _).bind fun _ => Agrees.pure _) (Agrees.pure _)
  have hbranches : ∀ keyword count,
      Agrees (branches ctx id keyword count) (branches ctx id keyword count) := fun keyword count =>
    (Agrees.mapM (fun _ => Agrees.child _ _) _).bind fun _ => Agrees.filterM (fun _ =>
      (Agrees.node _).bind fun _ => Agrees.pure _) _
  unfold Drafting.unionRule
  refine (Agrees.node _).bind fun schema => (hbranches _ _).bind fun found =>
    (Agrees.mapM (fun _ => hshape _) _).bind fun shapes => ?_
  show Agrees (unionOutcome ctx rule request id schema.keywords found shapes)
    (unionOutcome ctx other request id schema.keywords found shapes)
  unfold unionOutcome
  split
  · exact Agrees.branchRule hrule request _ _
  · exact Agrees.ite (Agrees.collapse hrule request _) (Agrees.markerOutcome hrule request id _ _ _)

theorem Agrees.dispatchWith (hrule : ∀ request id, Agrees (rule request id) (other request id))
    (fuel : Nat) (request : Request) (id : NodeId) :
    Agrees (Drafting.dispatchWith ctx fuel rule request id)
      (Drafting.dispatchWith ctx fuel other request id) := by
  have hshape : ∀ shape, Agrees (shapeRule ctx fuel rule shape request id)
      (shapeRule ctx fuel other shape request id) := by
    intro shape
    cases shape with
    | allOf => exact (Agrees.mergeAllOf fuel id).bind fun _ => hrule _ _
    | union => exact Agrees.unionRule hrule fuel request id
    | enumeration => exact Agrees.enumRule request id
    | object => exact Agrees.objectRule hrule request id
    | array => exact Agrees.arrayRule hrule request id
    | primitive type => exact (Agrees.node _).bind fun _ => Agrees.pure _
    | any => exact Agrees.pure _
  unfold Drafting.dispatchWith
  refine (Agrees.node _).bind fun schema => (Agrees.read fun draft => draft).bind fun _ => ?_
  split
  · exact Agrees.pure _
  · split
    · exact Agrees.pure _
    · exact Agrees.pure _
    · exact hshape _

end Rules

section Watch

variable {ctx : Context} {fault : Fault}

theorem Agrees.minding : Agrees (Drafting.minding fault) (Pure.pure ()) := by
  intro d hd
  refine ⟨?_, hd⟩
  show
    (if d.graph.Climbable then Pure.pure () else MonadExcept.throw fault : Drafting Unit).run d = _
  rw [if_pos hd.climbable]

theorem watched_agrees (fault : Fault) : ∀ (fuel : Nat) (request : Request) (id : NodeId),
    Agrees (watched ctx (minding fault) fuel request id) (dispatch ctx fuel request id) := by
  intro fuel
  induction fuel with
  | zero => exact fun _ _ => Agrees.throw _
  | succ fuel ih =>
    intro request id
    rw [watched, dispatch]
    refine Agrees.dispatchWith (fun request id => ?_) _ request id
    have hkept : Agrees (minding fault) (Pure.pure ()) := Agrees.minding
    have hinside := hkept.bind fun _ => (ih request id).bind fun type =>
      hkept.bind fun _ => Agrees.pure type
    simpa only [pure_bind, bind_pure] using hinside

theorem generateWatched_agrees (fault : Fault) (levels : Draft → Nat) (place : Location) :
    Agrees (generateWatched ctx (minding fault) levels place)
      (generateWatched ctx (Pure.pure ()) levels place) := by
  unfold generateWatched
  refine (Agrees.inStore _).bind fun id => (Agrees.node _).bind fun schema =>
    (Agrees.read fun draft => draft).bind fun d => ?_
  rw [watched_pure]
  exact watched_agrees fault _ _ _

end Watch

end SchemaBeans.Drafting
