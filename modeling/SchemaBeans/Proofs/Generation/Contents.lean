import SchemaBeans.Proofs.Generation.Composition
import SchemaBeans.Proofs.Store.Nodes

/-! # Schemas and their contents

Every node that a run makes is read from the content it keeps: its keywords and its shape are what
that content says, be it a part of a document or a merge. -/
namespace SchemaBeans.Drafting

variable {ctx : Context} {α β : Type} {d e : Draft}

/-- All nodes are what their contents say. -/
def AllRead (d : Draft) : Prop := ∀ id, d.store.Has id → (d.store.node id).Read

/-- A step that makes no node but what its content says. -/
def StaysRead (d e : Draft) : Prop := AllRead d → AllRead e

instance : IsPreorder Draft StaysRead where
  refl _ := id
  trans _ _ _ h k := k ∘ h

/-- The step makes no node but what its content says. -/
def Reading (x : Drafting α) : Prop := ∀ d, Follows StaysRead x d fun _ _ => True

theorem Reading.pure (a : α) : Reading (Pure.pure a : Drafting α) := fun _ => Follows.pure trivial

theorem Reading.throw (fault : Fault) : Reading (MonadExcept.throw fault : Drafting α) :=
  fun _ => Follows.throw

theorem Reading.lift (e : Except Fault α) : Reading (liftM e : Drafting α) :=
  fun _ => Follows.lift fun _ _ => trivial

theorem Reading.bind {x : Drafting α} {f : α → Drafting β} (hx : Reading x)
    (hf : ∀ a, Reading (f a)) : Reading (x >>= f) :=
  fun d => (hx d).bind fun a e _ _ => hf a e

theorem Reading.read (part : Draft → α) :
    Reading (do let draft ← get; Pure.pure (part draft) : Drafting α) :=
  fun d => Follows.of_repeats (a := part d) rfl trivial

theorem Reading.node (id : NodeId) : Reading (Drafting.node id) :=
  .read fun draft => draft.store.node id

theorem Reading.write {f : Draft → Draft} (hnodes : ∀ d, (f d).store.nodes = d.store.nodes) :
    Reading (modify f : Drafting Unit) := by
  refine fun d => Follows.change (fun hd id hid => ?_) trivial
  have hnode : (f d).store.node id = d.store.node id :=
    congrArg (·.getD id.index default) (hnodes d)
  unfold Store.Has at hid
  rw [hnodes] at hid
  rw [hnode]
  exact hd id hid

theorem Reading.stack (f : List NodeId → List NodeId) :
    Reading (modify fun draft : Draft => { draft with merging := f draft.merging } :
      Drafting Unit) :=
  .write fun _ => rfl

theorem Reading.check {c : Prop} [Decidable c] {fault : Fault} {x : Unit → Drafting α}
    (hx : Reading (x ())) : Reading (if c then MonadExcept.throw fault >>= x else x ()) :=
  Compositional.ite (fun _ => Follows.throw_bind) hx

theorem Reading.inStore {action : Store.Action α}
    (h : ∀ known st, Follows (Store.Adds known SchemaNode.Read) action st fun _ _ => True) :
    Reading (Drafting.inStore action) := by
  intro d r e hx hr
  rw [run_inStore] at hx
  cases hx
  refine ⟨fun hd id hid => ?_, fun _ _ => trivial⟩
  have hadds := (h (action.run d.store).2.documents d.store _ _ rfl hr).1
  exact hadds.forall (List.Subset.refl _) hd hid

theorem Reading.child (parent : NodeId) (segments : List String) :
    Reading (Drafting.child ctx parent segments) :=
  .inStore fun _ st => Store.child_adds (fun _ h _ => h) parent segments st
    fun _ _ _ _ _ hread => hread

theorem Reading.resolve (place : Location) :
    Reading (Drafting.inStore (Store.resolve ctx.files place)) :=
  .inStore fun _ st => Store.resolve_adds (fun _ h _ => h) place st

theorem Reading.foldlM {f : β → α → Drafting β} (hf : ∀ b a, Reading (f b a)) :
    ∀ (xs : List α) (b : β), Reading (xs.foldlM f b) := by
  intro xs
  induction xs with
  | nil => exact fun b => .pure b
  | cons x xs ih =>
    intro b
    rw [List.foldlM_cons]
    exact (hf b x).bind ih

theorem Reading.mergeAllOf : ∀ (fuel : Nat) (id : NodeId),
    Reading (Drafting.mergeAllOf ctx fuel id) := by
  intro fuel
  induction fuel with
  | zero => exact fun _ => .throw _
  | succ fuel ih =>
    intro id
    have hmember : ∀ sofar index,
        Reading (addMember ctx (Drafting.mergeAllOf ctx fuel) id sofar index) := by
      intro sofar index
      unfold addMember
      refine (Reading.child _ _).bind fun member => (Reading.node _).bind fun target => ?_
      refine Compositional.ite (.pure _) (Compositional.ite ((ih _).bind ?_)
        ((Reading.pure _).bind ?_))
      all_goals
        exact fun _ => (Reading.node _).bind fun _ => (Reading.lift _).bind fun _ => .pure _
    unfold Drafting.mergeAllOf
    refine (Reading.node id).bind fun schema => (Reading.read fun draft => draft).bind fun d =>
      Reading.check ?_
    refine (Reading.stack (id :: ·)).bind fun _ => (Reading.foldlM hmember _ _).bind fun all =>
      (Reading.stack List.tail).bind fun _ => (Reading.lift _).bind fun own => ?_
    exact .inStore fun _ st => Store.synthesize_adds (fun _ h _ => h) st fun _ _ hread => hread

theorem compositional_reading (ctx : Context) : Compositional ctx Reading where
  pure := .pure
  throw := .throw
  bind := .bind
  lift := .lift
  read := .read
  write hstore _ := .write fun d => congrArg Store.nodes (hstore d)
  resolve := .resolve
  reference _ _ := .inStore fun _ st =>
    Follows.after (a := st) rfl
      (Follows.lift_bind fun _ _ => Store.resolve_adds (fun _ h _ => h) _ st)
  child := .child
  merge := .mergeAllOf

end SchemaBeans.Drafting
