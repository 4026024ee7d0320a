import Mathlib.Data.List.Forall2
import Mathlib.Order.Defs.Unbundled
import SchemaBeans.Fault

/-! # Outcomes of stateful steps

A step changes a state and answers or fails, and a fault keeps what was done before it. `Follows`
tells what a step does to the state and what holds of its answer, for every end but an endless one,
which has no state after it. `Faults` tells which faults it ends with, the endless one included, and
`Ends` that it is not endless. A step `Completes` if both it ends and what it does is told.
`Repeats` tells of a step that answers without changing anything, and `Approximates` of a step that
another one agrees with unless it is endless. A step with fuel `Finishes` if some fuel is enough. -/
namespace SchemaBeans

variable {σ α β : Type} {R : σ → σ → Prop}

/-- From `s` the step moves along `R`, and its answer satisfies `Q`. -/
def Follows (R : σ → σ → Prop) (x : ExceptT Fault (StateM σ) α) (s : σ) (Q : α → σ → Prop) : Prop :=
  ∀ r t, x.run s = (r, t) → r ≠ .error .endless → R s t ∧ ∀ a, r = .ok a → Q a t

/-- The step answers `a` and leaves the state as it is. -/
def Repeats (x : ExceptT Fault (StateM σ) α) (s : σ) (a : α) : Prop := x.run s = (.ok a, s)

theorem run_bind (x : ExceptT Fault (StateM σ) α) (f : α → ExceptT Fault (StateM σ) β) (s : σ) :
    (x >>= f).run s = match x.run s with
      | (.ok a, t) => (f a).run t
      | (.error e, t) => (.error e, t) := by
  show (ExceptT.bindCont f (x.run s).1).run (x.run s).2 = _
  rcases x.run s with ⟨r, t⟩
  cases r <;> rfl

theorem run_bind_ok {x : ExceptT Fault (StateM σ) α} {f : α → ExceptT Fault (StateM σ) β} {s t : σ}
    {a : α} (h : x.run s = (.ok a, t)) : (x >>= f).run s = (f a).run t := by
  rw [run_bind, h]

theorem run_change (g : σ → σ) (s : σ) :
    (modify g : ExceptT Fault (StateM σ) Unit).run s = (.ok (), g s) := rfl

theorem ok_of_bind {ε : Type} {x : Except ε α} {f : α → Except ε β} {b : β}
    (h : (x >>= f) = .ok b) : ∃ a, x = .ok a ∧ f a = .ok b := by
  cases x with
  | ok a => exact ⟨a, rfl, h⟩
  | error e => cases h

theorem eq_ok_of_toOption {α ε : Type} {r : Except ε α} {a : α} (h : r.toOption = some a) :
    r = .ok a := by
  cases r with
  | ok b => exact congrArg Except.ok (Option.some.inj h)
  | error fault => cases h

theorem error_of_bind {ε : Type} {x : Except ε α} {f : α → Except ε β} {e : ε}
    (h : (x >>= f) = .error e) : x = .error e ∨ ∃ a, x = .ok a ∧ f a = .error e := by
  cases x with
  | ok a => exact .inr ⟨a, rfl, h⟩
  | error e' =>
    cases h
    exact .inl rfl

theorem Follows.success {x : ExceptT Fault (StateM σ) α} {s t : σ} {Q : α → σ → Prop} {a : α}
    (h : Follows R x s Q) (hx : x.run s = (.ok a, t)) : R s t ∧ Q a t := by
  have hr := h _ _ hx (by simp)
  exact ⟨hr.1, hr.2 a rfl⟩

theorem Follows.of_run_eq {x y : ExceptT Fault (StateM σ) α} {s : σ} {Q : α → σ → Prop}
    (h : x.run s = y.run s) (hy : Follows R y s Q) : Follows R x s Q :=
  fun r t hx hr => hy r t (h.symm.trans hx) hr

theorem Follows.imp {x : ExceptT Fault (StateM σ) α} {s : σ} {P Q : α → σ → Prop}
    (h : Follows R x s P) (hPQ : ∀ a t, R s t → P a t → Q a t) : Follows R x s Q := by
  intro r t hx hr
  obtain ⟨hR, hP⟩ := h r t hx hr
  exact ⟨hR, fun a ha => hPQ a t hR (hP a ha)⟩

theorem Follows.along {S : σ → σ → Prop} {x : ExceptT Fault (StateM σ) α} {s : σ} {Q : α → σ → Prop}
    (h : Follows S x s Q) (hSR : ∀ t, S s t → R s t) : Follows R x s Q := by
  intro r t hx hr
  obtain ⟨hS, hQ⟩ := h r t hx hr
  exact ⟨hSR t hS, hQ⟩

/-- Two things that a step does go together. -/
theorem Follows.and {S : σ → σ → Prop} {x : ExceptT Fault (StateM σ) α} {s : σ} {P Q : α → σ → Prop}
    (h : Follows R x s P) (k : Follows S x s Q) :
    Follows R x s fun a t => P a t ∧ S s t ∧ Q a t := by
  intro r t hx hr
  obtain ⟨hR, hP⟩ := h r t hx hr
  obtain ⟨hS, hQ⟩ := k r t hx hr
  exact ⟨hR, fun a ha => ⟨hP a ha, hS, hQ a ha⟩⟩

theorem Follows.meet {S T : σ → σ → Prop} {x : ExceptT Fault (StateM σ) α} {s : σ}
    {P Q : α → σ → Prop} (h : Follows R x s P) (k : Follows S x s Q)
    (hT : ∀ t, R s t → S s t → T s t) : Follows T x s fun a t => P a t ∧ Q a t := by
  intro r t hx hr
  obtain ⟨hR, hP⟩ := h r t hx hr
  obtain ⟨hS, hQ⟩ := k r t hx hr
  exact ⟨hT t hR hS, fun a ha => ⟨hP a ha, hQ a ha⟩⟩

theorem forall_mem_of_forall₂ {S : α → β → Prop} {p : β → Prop} (hp : ∀ a b, S a b → p b)
    {xs : List α} {ys : List β} (h : List.Forall₂ S xs ys) : ∀ y ∈ ys, p y := by
  induction h with
  | nil => simp
  | cons hab _ ih => exact List.forall_mem_cons.mpr ⟨hp _ _ hab, ih⟩

theorem exists_forall₂ {γ : Type} {S : α → β → Prop} {T : α → γ → Prop} {U : β → γ → Prop}
    (hmeet : ∀ a b, S a b → ∃ c, T a c ∧ U b c) {xs : List α} {ys : List β}
    (h : List.Forall₂ S xs ys) : ∃ zs, List.Forall₂ T xs zs ∧ List.Forall₂ U ys zs := by
  induction h with
  | nil => exact ⟨[], .nil, .nil⟩
  | cons hab _ ih =>
    obtain ⟨c, hac, hbc⟩ := hmeet _ _ hab
    obtain ⟨zs, hxs, hys⟩ := ih
    exact ⟨c :: zs, .cons hac hxs, .cons hbc hys⟩

theorem forall₂_join {γ : Type} {S : α → β → Prop} {T : α → γ → Prop} {U : β → γ → Prop}
    (hjoin : ∀ a b c, S a b → T a c → U b c) {xs : List α} {ys : List β} {zs : List γ}
    (h : List.Forall₂ S xs ys) (k : List.Forall₂ T xs zs) : List.Forall₂ U ys zs := by
  induction h generalizing zs with
  | nil =>
    cases k
    exact .nil
  | cons hab _ ih =>
    cases k with
    | cons hac hrest => exact .cons (hjoin _ _ _ hab hac) (ih hrest)

section Rules

variable [IsPreorder σ R]

theorem Follows.pure {s : σ} {a : α} {Q : α → σ → Prop} (h : Q a s) :
    Follows R (Pure.pure a : ExceptT Fault (StateM σ) α) s Q := by
  intro r t hx _
  cases hx
  exact ⟨refl s, fun b hb => by cases hb; exact h⟩

theorem Follows.throw {s : σ} {fault : Fault} {Q : α → σ → Prop} :
    Follows R (MonadExcept.throw fault : ExceptT Fault (StateM σ) α) s Q := by
  intro r t hx _
  cases hx
  exact ⟨refl s, fun b hb => by cases hb⟩

theorem Follows.lift {s : σ} {e : Except Fault α} {Q : α → σ → Prop} (h : ∀ a, e = .ok a → Q a s) :
    Follows R (liftM e : ExceptT Fault (StateM σ) α) s Q := by
  intro r t hx _
  cases hx
  exact ⟨refl s, h⟩

omit [IsPreorder σ R] in
theorem Follows.change {s : σ} {f : σ → σ} {Q : Unit → σ → Prop} (hR : R s (f s)) (h : Q () (f s)) :
    Follows R (modify f : ExceptT Fault (StateM σ) Unit) s Q := by
  intro r t hx _
  cases hx
  exact ⟨hR, fun _ _ => h⟩

theorem Follows.bind {x : ExceptT Fault (StateM σ) α} {f : α → ExceptT Fault (StateM σ) β} {s : σ}
    {P : α → σ → Prop} {Q : β → σ → Prop} (hx : Follows R x s P)
    (hf : ∀ a t, R s t → P a t → Follows R (f a) t Q) : Follows R (x >>= f) s Q := by
  intro r u hrun hr
  rw [run_bind] at hrun
  rcases hxs : x.run s with ⟨o, t⟩
  rw [hxs] at hrun
  cases o with
  | error e =>
    cases hrun
    exact ⟨(hx _ _ hxs fun he => hr (by cases he; rfl)).1, fun a ha => by cases ha⟩
  | ok a =>
    obtain ⟨hst, hP⟩ := hx.success hxs
    obtain ⟨htu, hQ⟩ := hf a t hst hP r u hrun hr
    exact ⟨IsTrans.trans _ _ _ hst htu, hQ⟩

theorem Follows.seq {γ : Type} {x : ExceptT Fault (StateM σ) α} {f : α → ExceptT Fault (StateM σ) β}
    {g : β → ExceptT Fault (StateM σ) γ} {s : σ} {P : β → σ → Prop} {Q : γ → σ → Prop}
    (h : Follows R (x >>= f) s P) (hg : ∀ b t, R s t → P b t → Follows R (g b) t Q) :
    Follows R (x >>= fun a => f a >>= g) s Q := by
  rw [← bind_assoc]
  exact h.bind hg

theorem Follows.lift_bind {e : Except Fault α} {f : α → ExceptT Fault (StateM σ) β} {s : σ}
    {Q : β → σ → Prop} (h : ∀ a, e = .ok a → Follows R (f a) s Q) :
    Follows R ((liftM e : ExceptT Fault (StateM σ) α) >>= f) s Q := by
  refine Follows.bind (P := fun a t => e = .ok a ∧ t = s) (Follows.lift fun a ha => ⟨ha, rfl⟩) ?_
  rintro a _ - ⟨ha, rfl⟩
  exact h a ha

theorem Follows.change_bind {g : σ → σ} {f : Unit → ExceptT Fault (StateM σ) β} {s : σ}
    {Q : β → σ → Prop} (hR : R s (g s)) (h : Follows R (f ()) (g s) Q) :
    Follows R (modify g >>= f) s Q := by
  refine Follows.bind (Follows.change (Q := fun _ t => t = g s) hR rfl) ?_
  rintro _ _ - rfl
  exact h

theorem Follows.throw_bind {fault : Fault} {f : α → ExceptT Fault (StateM σ) β} {s : σ}
    {Q : β → σ → Prop} :
    Follows R ((MonadExcept.throw fault : ExceptT Fault (StateM σ) α) >>= f) s Q :=
  Follows.bind (P := fun _ _ => False) Follows.throw fun _ _ _ h => h.elim

theorem Follows.check {c : Prop} [Decidable c] {fault : Fault} {s : σ}
    {x : Unit → ExceptT Fault (StateM σ) α} {Q : α → σ → Prop} (hx : Follows R (x ()) s Q) :
    Follows R (if c then MonadExcept.throw fault >>= x else x ()) s Q := by
  split
  · exact Follows.throw_bind
  · exact hx

/-- `I` holds between the items, and `P` goes on to hold of those that are done. -/
theorem Follows.mapM {f : α → ExceptT Fault (StateM σ) β} {I : σ → Prop} {P : α → β → σ → Prop}
    (stays : ∀ a b s t, I s → R s t → P a b s → P a b t) :
    ∀ (xs : List α), (∀ a ∈ xs, ∀ s, I s → Follows R (f a) s (fun b t => I t ∧ P a b t)) →
      ∀ s, I s → Follows R (xs.mapM f) s
        (fun bs t => I t ∧ List.Forall₂ (fun a b => P a b t) xs bs) := by
  intro xs
  induction xs with
  | nil =>
    intro _ s hs
    rw [List.mapM_nil]
    exact Follows.pure ⟨hs, .nil⟩
  | cons x xs ih =>
    intro step s hs
    rw [List.mapM_cons]
    refine Follows.bind (step x (by simp) s hs) fun b t _ ⟨ht, hb⟩ => ?_
    refine Follows.bind (ih (fun a ha => step a (by simp [ha])) t ht) fun bs u htu ⟨hu, hbs⟩ => ?_
    exact Follows.pure ⟨hu, .cons (stays _ _ _ _ ht htu hb) hbs⟩

/-- `I` speaks of the answer so far and of the items still to come. -/
theorem Follows.foldlM {f : β → α → ExceptT Fault (StateM σ) β} {I : β → List α → σ → Prop}
    (step : ∀ b a rest s, I b (a :: rest) s → Follows R (f b a) s (fun b' t => I b' rest t)) :
    ∀ (xs : List α) (b : β) (s : σ), I b xs s →
      Follows R (xs.foldlM f b) s (fun b' t => I b' [] t) := by
  intro xs
  induction xs with
  | nil =>
    intro b s h
    rw [List.foldlM_nil]
    exact Follows.pure h
  | cons x xs ih =>
    intro b s h
    rw [List.foldlM_cons]
    exact Follows.bind (step b x xs s h) fun b' t _ h' => ih b' t h'

/-- `I` speaks of the items still to come. -/
theorem Follows.forM {f : α → ExceptT Fault (StateM σ) Unit} {I : List α → σ → Prop}
    (step : ∀ a rest s, I (a :: rest) s → Follows R (f a) s (fun _ t => I rest t)) :
    ∀ (xs : List α) (s : σ), I xs s → Follows R (xs.forM f) s (fun _ t => I [] t) := by
  intro xs
  induction xs with
  | nil =>
    intro s h
    exact Follows.pure h
  | cons x xs ih =>
    intro s h
    exact Follows.bind (step x xs s h) fun _ t _ h' => ih t h'

/-- If the step from `s` answers, `Q` holds afterwards. -/
abbrev Yields (x : ExceptT Fault (StateM σ) α) (s : σ) (Q : α → σ → Prop) : Prop :=
  Follows (fun _ _ : σ => True) x s Q

instance isPreorder_true : IsPreorder σ fun _ _ : σ => True where
  refl _ := trivial
  trans _ _ _ _ _ := trivial

end Rules

section Repeats

theorem Repeats.pure (s : σ) (a : α) : Repeats (Pure.pure a : ExceptT Fault (StateM σ) α) s a := rfl

theorem Repeats.bind {x : ExceptT Fault (StateM σ) α} {f : α → ExceptT Fault (StateM σ) β} {s : σ}
    {a : α} {b : β} (hx : Repeats x s a) (hf : Repeats (f a) s b) : Repeats (x >>= f) s b := by
  unfold Repeats at *
  rw [run_bind, hx]
  exact hf

theorem Repeats.lift {s : σ} {e : Except Fault α} {a : α} (h : e = .ok a) :
    Repeats (liftM e : ExceptT Fault (StateM σ) α) s a := by
  subst h
  rfl

theorem Repeats.mapM {f : α → ExceptT Fault (StateM σ) β} {s : σ} {xs : List α} {bs : List β}
    (h : List.Forall₂ (fun a b => Repeats (f a) s b) xs bs) : Repeats (xs.mapM f) s bs := by
  induction h with
  | nil => rfl
  | cons hb _ ih =>
    rw [List.mapM_cons]
    exact hb.bind (ih.bind (Repeats.pure s _))

theorem Repeats.filterM {f : α → ExceptT Fault (StateM σ) Bool} {s : σ} {p : α → Bool}
    (h : ∀ a, Repeats (f a) s (p a)) (xs : List α) : Repeats (xs.filterM f) s (xs.filter p) := by
  have aux : ∀ (xs done : List α),
      Repeats (xs.filterAuxM f done) s ((xs.filter p).reverse ++ done) := by
    intro xs
    induction xs with
    | nil => exact fun done => Repeats.pure s _
    | cons x xs ih =>
      intro done
      refine (h x).bind ?_
      cases hp : p x with
      | true => simpa [hp] using ih (x :: done)
      | false => simpa [hp] using ih done
  refine (aux xs []).bind ?_
  simpa using Repeats.pure s _

theorem Follows.of_repeats [IsPreorder σ R] {x : ExceptT Fault (StateM σ) α} {s : σ} {a : α}
    {Q : α → σ → Prop} (h : Repeats x s a) (hQ : Q a s) : Follows R x s Q := by
  intro r t hx _
  rw [h] at hx
  cases hx
  exact ⟨refl s, fun b hb => by cases hb; exact hQ⟩

theorem bind_ite {c : Prop} [Decidable c] (x y : ExceptT Fault (StateM σ) α)
    (f : α → ExceptT Fault (StateM σ) β) :
    (if c then x >>= f else y >>= f) = (if c then x else y) >>= f := by
  split <;> rfl

/-- What a step that changes nothing answers is known to the steps after it. -/
theorem Follows.after {x : ExceptT Fault (StateM σ) α} {f : α → ExceptT Fault (StateM σ) β} {s : σ}
    {a : α} {Q : β → σ → Prop} (hx : Repeats x s a) (hf : Follows R (f a) s Q) :
    Follows R (x >>= f) s Q := by
  intro r t hrun hr
  rw [run_bind, hx] at hrun
  exact hf r t hrun hr

end Repeats

section Faults

/-- A fault of the step from `s` satisfies `E`, in the state that it leaves. -/
def Faults (x : ExceptT Fault (StateM σ) α) (s : σ) (E : Fault → σ → Prop) : Prop :=
  ∀ fault t, x.run s = (.error fault, t) → E fault t

variable {E : Fault → σ → Prop} {s : σ}

theorem Faults.pure (a : α) : Faults (Pure.pure a : ExceptT Fault (StateM σ) α) s E := by
  intro fault t h
  cases h

theorem Faults.throw {fault : Fault} (h : E fault s) :
    Faults (MonadExcept.throw fault : ExceptT Fault (StateM σ) α) s E := by
  intro fault t hx
  cases hx
  exact h

theorem Faults.lift {e : Except Fault α} (h : ∀ fault, e = .error fault → E fault s) :
    Faults (liftM e : ExceptT Fault (StateM σ) α) s E := by
  intro fault t hx
  cases hx
  exact h fault rfl

theorem Faults.change (f : σ → σ) :
    Faults (modify f : ExceptT Fault (StateM σ) Unit) s E := by
  intro fault t h
  cases h

theorem Faults.bind {x : ExceptT Fault (StateM σ) α} {f : α → ExceptT Fault (StateM σ) β}
    (hx : Faults x s E) (hf : ∀ a t, x.run s = (.ok a, t) → Faults (f a) t E) :
    Faults (x >>= f) s E := by
  intro fault u hrun
  rw [run_bind] at hrun
  rcases hxs : x.run s with ⟨o, t⟩
  rw [hxs] at hrun
  cases o with
  | error e =>
    cases hrun
    exact hx _ _ hxs
  | ok a => exact hf a t hxs fault u hrun

theorem Faults.lift_bind {e : Except Fault α} {f : α → ExceptT Fault (StateM σ) β}
    (he : ∀ fault, e = .error fault → E fault s) (hf : ∀ a, e = .ok a → Faults (f a) s E) :
    Faults ((liftM e : ExceptT Fault (StateM σ) α) >>= f) s E := by
  cases e with
  | error fault =>
    intro other t h
    cases h
    exact he fault rfl
  | ok a => exact hf a rfl

theorem Faults.after {x : ExceptT Fault (StateM σ) α} {f : α → ExceptT Fault (StateM σ) β} {a : α}
    (hx : Repeats x s a) (hf : Faults (f a) s E) : Faults (x >>= f) s E := by
  intro fault t hrun
  rw [run_bind, hx] at hrun
  exact hf fault t hrun

theorem Faults.imp {F : Fault → σ → Prop} {x : ExceptT Fault (StateM σ) α} (h : Faults x s E)
    (hEF : ∀ fault t, E fault t → F fault t) : Faults x s F :=
  fun fault t hx => hEF fault t (h fault t hx)

/-- `I` speaks of the answer so far and of the items still to come. -/
theorem Faults.foldlM {f : β → α → ExceptT Fault (StateM σ) β} {I : β → List α → σ → Prop}
    (step : ∀ b a rest s, I b (a :: rest) s → Faults (f b a) s E ∧
      ∀ b' t, (f b a).run s = (.ok b', t) → I b' rest t) :
    ∀ (xs : List α) (b : β) (s : σ), I b xs s → Faults (xs.foldlM f b) s E := by
  intro xs
  induction xs with
  | nil => exact fun b _ _ => Faults.pure b
  | cons x xs ih =>
    intro b s h
    rw [List.foldlM_cons]
    exact (step b x xs s h).1.bind fun b' t hrun => ih b' t ((step b x xs s h).2 b' t hrun)

end Faults

section Ends

/-- The step from `s` comes to an end, and its answer satisfies `Q`. -/
def Ends (x : ExceptT Fault (StateM σ) α) (s : σ) (Q : α → σ → Prop) : Prop :=
  ∀ r t, x.run s = (r, t) → r ≠ .error .endless ∧ ∀ a, r = .ok a → Q a t

variable {s : σ} {Q : α → σ → Prop}

theorem Ends.success {x : ExceptT Fault (StateM σ) α} {t : σ} {a : α} (h : Ends x s Q)
    (hx : x.run s = (.ok a, t)) : Q a t := (h _ _ hx).2 a rfl

theorem Ends.pure {a : α} (h : Q a s) : Ends (Pure.pure a : ExceptT Fault (StateM σ) α) s Q := by
  intro r t hx
  cases hx
  exact ⟨by simp, fun b hb => by cases hb; exact h⟩

theorem Ends.throw {fault : Fault} (h : fault ≠ .endless) :
    Ends (MonadExcept.throw fault : ExceptT Fault (StateM σ) α) s Q := by
  intro r t hx
  cases hx
  exact ⟨fun he => h (by cases he; rfl), fun b hb => by cases hb⟩

theorem Ends.lift {e : Except Fault α} (hends : e ≠ .error .endless) (h : ∀ a, e = .ok a → Q a s) :
    Ends (liftM e : ExceptT Fault (StateM σ) α) s Q := by
  intro r t hx
  cases hx
  exact ⟨hends, h⟩

theorem Ends.change {f : σ → σ} {Q : Unit → σ → Prop} (h : Q () (f s)) :
    Ends (modify f : ExceptT Fault (StateM σ) Unit) s Q := by
  intro r t hx
  cases hx
  exact ⟨by simp, fun _ _ => h⟩

theorem Ends.bind {x : ExceptT Fault (StateM σ) α} {f : α → ExceptT Fault (StateM σ) β}
    {P : α → σ → Prop} {Q : β → σ → Prop} (hx : Ends x s P)
    (hf : ∀ a t, P a t → Ends (f a) t Q) : Ends (x >>= f) s Q := by
  intro r u hrun
  rw [run_bind] at hrun
  rcases hxs : x.run s with ⟨o, t⟩
  rw [hxs] at hrun
  cases o with
  | error e =>
    cases hrun
    exact ⟨fun he => (hx _ _ hxs).1 (by cases he; rfl), fun b hb => by cases hb⟩
  | ok a => exact hf a t (hx.success hxs) r u hrun

theorem Ends.throw_bind {f : α → ExceptT Fault (StateM σ) β} {fault : Fault} {Q : β → σ → Prop}
    (h : fault ≠ .endless) : Ends (MonadExcept.throw fault >>= f) s Q :=
  Ends.bind (P := fun _ _ => False) (Ends.throw h) fun _ _ hno => hno.elim

theorem Ends.after {x : ExceptT Fault (StateM σ) α} {f : α → ExceptT Fault (StateM σ) β} {a : α}
    {Q : β → σ → Prop} (hx : Repeats x s a) (hf : Ends (f a) s Q) : Ends (x >>= f) s Q := by
  intro r t hrun
  rw [run_bind, hx] at hrun
  exact hf r t hrun

theorem Ends.imp {P : α → σ → Prop} {x : ExceptT Fault (StateM σ) α} (h : Ends x s P)
    (hPQ : ∀ a t, P a t → Q a t) : Ends x s Q :=
  fun r t hx => ⟨(h r t hx).1, fun a ha => hPQ a t ((h r t hx).2 a ha)⟩

/-- `I` speaks of the items still to come. -/
theorem Ends.forM {f : α → ExceptT Fault (StateM σ) Unit} {I : List α → σ → Prop}
    (step : ∀ a rest s, I (a :: rest) s → Ends (f a) s fun _ t => I rest t) :
    ∀ (xs : List α) (s : σ), I xs s → Ends (xs.forM f) s fun _ t => I [] t := by
  intro xs
  induction xs with
  | nil => exact fun s h => Ends.pure h
  | cons x xs ih => exact fun s h => Ends.bind (step x xs s h) fun _ t h' => ih t h'

theorem Ends.and_follows {P : α → σ → Prop} {x : ExceptT Fault (StateM σ) α} (h : Ends x s P)
    (hx : Follows R x s Q) : Ends x s fun a t => P a t ∧ R s t ∧ Q a t := by
  intro r t hrun
  obtain ⟨hends, hP⟩ := h r t hrun
  obtain ⟨hR, hQ⟩ := hx r t hrun hends
  exact ⟨hends, fun a ha => ⟨hP a ha, hR, hQ a ha⟩⟩

end Ends

section Completes

/-- The step from `s` comes to an end, moves along `R`, and its answer satisfies `Q`. -/
structure Completes (R : σ → σ → Prop) (x : ExceptT Fault (StateM σ) α) (s : σ)
    (Q : α → σ → Prop) : Prop where
  ends : Ends x s fun _ _ => True
  follows : Follows R x s Q

variable {s : σ} {P Q : α → σ → Prop}

theorem Completes.imp {x : ExceptT Fault (StateM σ) α} (h : Completes R x s P)
    (hPQ : ∀ a t, R s t → P a t → Q a t) : Completes R x s Q := ⟨h.ends, h.follows.imp hPQ⟩

theorem Completes.along {S : σ → σ → Prop} {x : ExceptT Fault (StateM σ) α}
    (h : Completes S x s Q) (hSR : ∀ t, S s t → R s t) : Completes R x s Q :=
  ⟨h.ends, h.follows.along hSR⟩

theorem Completes.of_run_eq {x y : ExceptT Fault (StateM σ) α} (h : x.run s = y.run s)
    (hy : Completes R y s Q) : Completes R x s Q :=
  ⟨fun r t hx => hy.ends r t (h.symm.trans hx), .of_run_eq h hy.follows⟩

theorem Completes.after {x : ExceptT Fault (StateM σ) α}
    {f : α → ExceptT Fault (StateM σ) β} {a : α}
    {Q : β → σ → Prop} (hx : Repeats x s a) (hf : Completes R (f a) s Q) :
    Completes R (x >>= f) s Q :=
  ⟨.after hx hf.ends, .after hx hf.follows⟩

theorem Completes.change {f : σ → σ} {Q : Unit → σ → Prop} (hR : R s (f s)) (h : Q () (f s)) :
    Completes R (modify f : ExceptT Fault (StateM σ) Unit) s Q :=
  ⟨.change trivial, .change hR h⟩

variable [IsPreorder σ R]

theorem Completes.pure {a : α} (h : Q a s) :
    Completes R (Pure.pure a : ExceptT Fault (StateM σ) α) s Q := ⟨.pure trivial, .pure h⟩

theorem Completes.of_repeats {x : ExceptT Fault (StateM σ) α} {a : α} (h : Repeats x s a)
    (hQ : Q a s) : Completes R x s Q where
  ends r t hx := by
    rw [h] at hx
    cases hx
    exact ⟨by simp, fun _ _ => trivial⟩
  follows := .of_repeats h hQ

theorem Completes.throw {fault : Fault} (h : fault ≠ .endless) :
    Completes R (MonadExcept.throw fault : ExceptT Fault (StateM σ) α) s Q := ⟨.throw h, .throw⟩

theorem Completes.lift {e : Except Fault α} (hends : e ≠ .error .endless)
    (h : ∀ a, e = .ok a → Q a s) :
    Completes R (liftM e : ExceptT Fault (StateM σ) α) s Q :=
  ⟨.lift hends fun _ _ => trivial, .lift h⟩

theorem Completes.bind {x : ExceptT Fault (StateM σ) α} {f : α → ExceptT Fault (StateM σ) β}
    {Q : β → σ → Prop} (hx : Completes R x s P)
    (hf : ∀ a t, R s t → P a t → Completes R (f a) t Q) : Completes R (x >>= f) s Q where
  ends := (hx.ends.and_follows hx.follows).bind fun a t ⟨_, hst, hP⟩ => (hf a t hst hP).ends
  follows := hx.follows.bind fun a t hst hP => (hf a t hst hP).follows

theorem Completes.lift_bind {e : Except Fault α} {f : α → ExceptT Fault (StateM σ) β}
    {Q : β → σ → Prop} (hends : e ≠ .error .endless)
    (h : ∀ a, e = .ok a → Completes R (f a) s Q) :
    Completes R ((liftM e : ExceptT Fault (StateM σ) α) >>= f) s Q := by
  refine Completes.bind (P := fun a t => e = .ok a ∧ t = s) (.lift hends fun a ha => ⟨ha, rfl⟩) ?_
  rintro a _ - ⟨ha, rfl⟩
  exact h a ha

theorem Completes.throw_bind {fault : Fault} {f : α → ExceptT Fault (StateM σ) β}
    {Q : β → σ → Prop} (h : fault ≠ .endless) :
    Completes R ((MonadExcept.throw fault : ExceptT Fault (StateM σ) α) >>= f) s Q :=
  ⟨.throw_bind h, .throw_bind⟩

theorem Completes.check {c : Prop} [Decidable c] {fault : Fault}
    {x : Unit → ExceptT Fault (StateM σ) α} (hfault : fault ≠ .endless)
    (hx : Completes R (x ()) s Q) :
    Completes R (if c then MonadExcept.throw fault >>= x else x ()) s Q := by
  split
  · exact .throw_bind hfault
  · exact hx

theorem Completes.mapM {f : α → ExceptT Fault (StateM σ) β} {I : σ → Prop} :
    ∀ (xs : List α), (∀ a ∈ xs, ∀ s, I s → Completes R (f a) s fun _ t => I t) →
      ∀ s, I s → Completes R (xs.mapM f) s fun _ t => I t := by
  intro xs
  induction xs with
  | nil => exact fun _ s hs => .pure hs
  | cons x xs ih =>
    intro step s hs
    rw [List.mapM_cons]
    refine (step x List.mem_cons_self s hs).bind fun b t _ ht => ?_
    refine (ih (fun a ha => step a (List.mem_cons_of_mem x ha)) t ht).bind fun bs u _ hu => ?_
    exact .pure hu

/-- `I` holds between the items. -/
theorem Completes.forM {f : α → ExceptT Fault (StateM σ) Unit} {I : σ → Prop} :
    ∀ (xs : List α), (∀ a ∈ xs, ∀ s, I s → Completes R (f a) s fun _ t => I t) →
      ∀ s, I s → Completes R (xs.forM f) s fun _ t => I t := by
  intro xs
  induction xs with
  | nil => exact fun _ s hs => .pure hs
  | cons x xs ih =>
    intro step s hs
    refine (step x List.mem_cons_self s hs).bind fun _ t _ ht => ?_
    exact ih (fun a ha => step a (List.mem_cons_of_mem x ha)) t ht

end Completes

section Approximates

/-- Where the first step comes to an end, the second one does the same. -/
def Approximates (x y : ExceptT Fault (StateM σ) α) : Prop :=
  ∀ s, (x.run s).1 = .error .endless ∨ x.run s = y.run s

theorem Approximates.refl (x : ExceptT Fault (StateM σ) α) : Approximates x x := fun _ => Or.inr rfl

theorem Approximates.bind {x y : ExceptT Fault (StateM σ) α}
    {f g : α → ExceptT Fault (StateM σ) β} (h : Approximates x y)
    (k : ∀ a, Approximates (f a) (g a)) :
    Approximates (x >>= f) (y >>= g) := by
  intro s
  rw [run_bind, run_bind]
  rcases h s with hend | heq
  · rcases hx : x.run s with ⟨o, t⟩
    rw [hx] at hend
    cases hend
    exact Or.inl rfl
  · rw [← heq]
    rcases x.run s with ⟨o, t⟩
    cases o with
    | error e => exact Or.inr rfl
    | ok a => exact k a t

theorem Approximates.ite {c : Prop} [Decidable c] {x y x' y' : ExceptT Fault (StateM σ) α}
    (h : Approximates x x') (k : Approximates y y') :
    Approximates (if c then x else y) (if c then x' else y') := by
  by_cases hc : c
  · rw [if_pos hc, if_pos hc]
    exact h
  · rw [if_neg hc, if_neg hc]
    exact k

theorem Approximates.foldlM {f g : β → α → ExceptT Fault (StateM σ) β}
    (h : ∀ b a, Approximates (f b a) (g b a)) :
    ∀ (xs : List α) (b : β), Approximates (xs.foldlM f b) (xs.foldlM g b) := by
  intro xs
  induction xs with
  | nil => exact fun b => Approximates.refl _
  | cons x xs ih =>
    intro b
    rw [List.foldlM_cons, List.foldlM_cons]
    exact (h b x).bind ih

theorem Approximates.ends {x y : ExceptT Fault (StateM σ) α} {s : σ} {Q : α → σ → Prop}
    (h : Approximates x y) (hx : Ends x s Q) : Ends y s Q := by
  rcases h s with hend | heq
  · exact absurd hend (hx _ _ rfl).1
  · intro r t hy
    exact hx r t (heq.trans hy)

theorem Approximates.ok {x y : ExceptT Fault (StateM σ) α} {s t : σ} {a : α} (h : Approximates x y)
    (hx : x.run s = (.ok a, t)) : y.run s = (.ok a, t) := by
  rcases h s with hend | heq
  · rw [hx] at hend
    cases hend
  · exact heq.symm.trans hx

end Approximates

section Fuel

/-- More fuel changes nothing about a step that has come to an end. -/
def Fueled (x : Nat → ExceptT Fault (StateM σ) α) : Prop :=
  ∀ {k f : Nat}, k ≤ f → Approximates (x k) (x f)

/-- With some fuel the step from `s` comes to an end, and its answer satisfies `Q`. -/
def Finishes (x : Nat → ExceptT Fault (StateM σ) α) (s : σ) (Q : α → σ → Prop) : Prop :=
  ∃ f, Ends (x f) s Q

theorem Fueled.const (x : ExceptT Fault (StateM σ) α) : Fueled fun _ => x :=
  fun _ => Approximates.refl x

variable {s : σ} {P Q : α → σ → Prop}

theorem Finishes.of_ends {x : ExceptT Fault (StateM σ) α} (h : Ends x s Q) :
    Finishes (fun _ => x) s Q := ⟨0, h⟩

theorem Finishes.imp {x : Nat → ExceptT Fault (StateM σ) α} (h : Finishes x s P)
    (hPQ : ∀ a t, P a t → Q a t) : Finishes x s Q := by
  obtain ⟨f, h⟩ := h
  exact ⟨f, h.imp hPQ⟩

theorem Finishes.and_follows {x : Nat → ExceptT Fault (StateM σ) α} (h : Finishes x s P)
    (hx : ∀ f, Follows R (x f) s Q) : Finishes x s fun a t => P a t ∧ R s t ∧ Q a t := by
  obtain ⟨f, h⟩ := h
  exact ⟨f, h.and_follows (hx f)⟩

theorem Finishes.after {x : ExceptT Fault (StateM σ) α} {g : Nat → α → ExceptT Fault (StateM σ) β}
    {a : α} {Q : β → σ → Prop} (hx : Repeats x s a) (hg : Finishes (fun f => g f a) s Q) :
    Finishes (fun f => x >>= g f) s Q := by
  obtain ⟨f, hg⟩ := hg
  exact ⟨f, .after hx hg⟩

theorem Finishes.change_bind {f : σ → σ} {g : Nat → Unit → ExceptT Fault (StateM σ) β}
    {Q : β → σ → Prop} (hg : Finishes (fun n => g n ()) (f s) Q) :
    Finishes (fun n => modify f >>= g n) s Q := by
  obtain ⟨n, hg⟩ := hg
  exact ⟨n, fun r t hx => hg r t ((run_bind_ok (run_change f s)).symm.trans hx)⟩

/-- Fuel for both steps is the larger one of what each of them needs. -/
theorem Finishes.bind {x : Nat → ExceptT Fault (StateM σ) α}
    {g : Nat → α → ExceptT Fault (StateM σ) β} {Q : β → σ → Prop} (hx : Fueled x)
    (hg : ∀ a, Fueled fun f => g f a) (h : Finishes x s P)
    (hnext : ∀ a t, P a t → Finishes (fun f => g f a) t Q) :
    Finishes (fun f => x f >>= g f) s Q := by
  obtain ⟨k, hk⟩ := h
  rcases hrun : (x k).run s with ⟨o, t⟩
  cases o with
  | error fault =>
    refine ⟨k, fun r u hru => ?_⟩
    rw [run_bind, hrun] at hru
    cases hru
    exact ⟨fun he => (hk _ _ hrun).1 (by cases he; rfl), fun b hb => by cases hb⟩
  | ok a =>
    obtain ⟨l, hl⟩ := hnext a t (hk.success hrun)
    refine ⟨max k l, fun r u hru => ?_⟩
    have hsame : (x (max k l)).run s = (.ok a, t) := by
      rcases hx (Nat.le_max_left k l) s with hend | heq
      · rw [hrun] at hend
        cases hend
      · exact heq.symm.trans hrun
    rw [run_bind, hsame] at hru
    exact ((hg a (Nat.le_max_right k l)).ends hl) r u hru

/-- `I` speaks of the answer so far and of the items still to come. -/
theorem Finishes.foldlM {g : Nat → β → α → ExceptT Fault (StateM σ) β}
    {I : β → List α → σ → Prop} (hg : ∀ b a, Fueled fun f => g f b a)
    (step : ∀ b a rest s, I b (a :: rest) s →
      Finishes (fun f => g f b a) s fun b' t => I b' rest t) :
    ∀ (xs : List α) (b : β) (s : σ), I b xs s →
      Finishes (fun f => xs.foldlM (g f) b) s fun b' t => I b' [] t := by
  intro xs
  induction xs with
  | nil => exact fun b s h => .of_ends (Ends.pure h)
  | cons x xs ih =>
    intro b s h
    simp only [List.foldlM_cons]
    refine Finishes.bind (hg b x) (fun b' => ?_) (step b x xs s h) fun b' t h' => ih b' t h'
    exact fun hle => Approximates.foldlM (fun b a => hg b a hle) xs b'

end Fuel

end SchemaBeans
