import SchemaBeans.Proofs.Generation.Merging

/-! # Running a merge

A run that succeeds leaves a merged schema behind, and a run for a merged schema changes nothing. So
no run, whatever becomes of it, takes from the store or puts on the stack what a schema merged
before depends on. -/
namespace SchemaBeans.Drafting

variable {ctx : Context}

theorem addMember_repeats {d : Draft} {merges : NodeId → NodeId → Prop}
    {merge : NodeId → Drafting NodeId} {id : NodeId} {sofar next : AllOf} {index : Nat}
    (h : Takes d.store merges id sofar index next)
    (hm : ∀ a b, merges a b → Repeats (merge a) d b) :
    Repeats (addMember ctx merge id sofar index) d next := by
  unfold addMember
  cases h with
  | @parent found hfound hparent =>
    refine (child_repeats ctx hfound).bind (Repeats.bind (a := d.store.node found.id) rfl ?_)
    simp only [hparent, if_true]
    exact Repeats.pure d _
  | @part found member content hfound hparent hmember hcontent =>
    refine (child_repeats ctx hfound).bind (Repeats.bind (a := d.store.node found.id) rfl ?_)
    simp only [hparent]
    rw [if_neg (by simp), bind_ite]
    have hid : Repeats (if (d.store.node found.id).shape = .allOf then merge found.id
        else pure found.id) d member := by
      by_cases hshape : (d.store.node found.id).shape = .allOf
      · rw [if_pos hshape] at hmember ⊢
        exact hm _ _ hmember
      · rw [if_neg hshape] at hmember ⊢
        rw [hmember]
        exact Repeats.pure d found.id
    refine hid.bind (Repeats.bind (a := d.store.node member) rfl ?_)
    exact (Repeats.lift hcontent).bind (Repeats.pure d _)

theorem addMembers_repeats (ctx : Context) {d : Draft} {merges : NodeId → NodeId → Prop}
    {merge : NodeId → Drafting NodeId} {id : NodeId}
    (hm : ∀ a b, merges a b → Repeats (merge a) d b) :
    ∀ (indices : List Nat) (sofar all : AllOf), TakesAll d.store merges id indices sofar all →
      Repeats (indices.foldlM (addMember ctx merge id) sofar) d all := by
  intro indices
  induction indices with
  | nil =>
    rintro sofar all rfl
    exact Repeats.pure d all
  | cons index rest ih =>
    rintro sofar all ⟨next, hnext, hrest⟩
    rw [List.foldlM_cons]
    exact (addMember_repeats hnext hm).bind (ih next all hrest)

theorem mergeAllOf_repeats : ∀ {k f : Nat} {d : Draft} {id made : NodeId}, k ≤ f →
    Merges d.store d.merging k id made → Repeats (mergeAllOf ctx f id) d made := by
  intro k
  induction k with
  | zero => exact fun _ h => h.elim
  | succ k ih =>
    intro f d id made hle h
    by_cases hless : ∃ m, Merges d.store d.merging k id m
    · obtain ⟨m, hm⟩ := hless
      rw [h.unique hm]
      exact ih (by omega) hm
    · -- The schema itself goes on the stack, and no member needs it: `k` levels are too few for it.
      have hopen : ∀ a b, Merges d.store d.merging k a b → Merges d.store (id :: d.merging) k a b :=
        fun a b hab => hab.bar (fun m hm => hless ⟨m, hm⟩)
      obtain ⟨f, rfl⟩ : ∃ g, f = g + 1 := ⟨f - 1, by omega⟩
      obtain ⟨_, hbar, hplace, ⟨all, hall⟩, own, hown⟩ := h
      have hmerge : ∀ a b, Merges d.store d.merging k a b →
          Repeats (mergeAllOf ctx f a) { d with merging := id :: d.merging } b :=
        fun a b hab => ih (by omega) (hopen a b hab)
      have hmembers := addMembers_repeats ctx hmerge _ _ _ hall
      have hcontains : d.merging.contains id = false := by simpa using hbar
      unfold mergeAllOf
      refine Repeats.bind (a := d.store.node id) rfl (Repeats.bind (a := d) rfl ?_)
      simp only [hcontains]
      rw [if_neg (by simp)]
      unfold Repeats
      refine (run_bind_ok (run_change _ _)).trans ((run_bind_ok hmembers).trans ?_)
      rw [run_bind_ok (run_change _ _), run_bind_ok (Repeats.lift hown)]
      exact inStore_repeats (Store.synthesize_repeats id _ hplace)

theorem addMember_approximates {merge merge' : NodeId → Drafting NodeId}
    (h : ∀ a, Approximates (merge a) (merge' a)) (id : NodeId) (sofar : AllOf) (index : Nat) :
    Approximates (addMember ctx merge id sofar index) (addMember ctx merge' id sofar index) := by
  unfold addMember
  refine (Approximates.refl _).bind fun found => (Approximates.refl _).bind fun target => ?_
  refine Approximates.ite (Approximates.refl _) (Approximates.ite ?_ (Approximates.refl _))
  exact (h found.id).bind fun _ => Approximates.refl _

theorem mergeAllOf_approximates (ctx : Context) : ∀ {k f : Nat}, k ≤ f → ∀ id,
    Approximates (mergeAllOf ctx k id) (mergeAllOf ctx f id) := by
  intro k
  induction k with
  | zero => exact fun _ _ _ => Or.inl rfl
  | succ k ih =>
    intro f hle id
    obtain ⟨f, rfl⟩ : ∃ g, f = g + 1 := ⟨f - 1, by omega⟩
    have hmembers : ∀ (indices : List Nat) (start : AllOf),
        Approximates (indices.foldlM (addMember ctx (mergeAllOf ctx k) id) start)
          (indices.foldlM (addMember ctx (mergeAllOf ctx f) id) start) :=
      Approximates.foldlM (addMember_approximates (ih (by omega)) id)
    unfold mergeAllOf
    refine (Approximates.refl _).bind fun schema => (Approximates.refl _).bind fun draft => ?_
    split
    · exact (Approximates.refl _).bind fun _ => (Approximates.refl _).bind fun _ =>
        (hmembers _ _).bind fun _ => Approximates.refl _
    · exact (Approximates.refl _).bind fun _ => (hmembers _ _).bind fun _ => Approximates.refl _

theorem mergeAllOf_of_merges {k f : Nat} {d e : Draft} {id made : NodeId} {r : Except Fault NodeId}
    (h : Merges d.store d.merging k id made) (hx : (mergeAllOf ctx f id).run d = (r, e))
    (hr : r ≠ .error .endless) : r = .ok made ∧ e = d := by
  rcases mergeAllOf_approximates ctx (Nat.le_max_right k f) id d with hend | heq
  · rw [hx] at hend
    exact absurd hend hr
  · rw [hx, mergeAllOf_repeats (Nat.le_max_left k f) h] at heq
    cases heq
    exact ⟨rfl, rfl⟩

/-- A relation that every part of a merge keeps to, but for putting a schema on the stack. -/
structure Harmless (R : Draft → Draft → Prop) : Prop where
  grows : ∀ {d e}, R d e → d.store.Grows e.store
  schemas : ∀ {d st}, d.store.Grows st → R d { d with store := st }
  pop : ∀ d, R d { d with merging := d.merging.tail }

section Walk

variable {R : Draft → Draft → Prop} [IsPreorder Draft R] {f : Nat}

theorem addMember_follows (hR : Harmless R) {merge : NodeId → Drafting NodeId}
    (hmerge : ∀ a d, d.store.Sound → d.store.Has a → Follows R (merge a) d
      (fun b e => e.merging = d.merging ∧ Merges e.store d.merging f a b))
    {d : Draft} {id : NodeId} (hs : d.store.Sound) (hid : d.store.Has id) (sofar : AllOf)
    (index : Nat) :
    Follows R (addMember ctx merge id sofar index) d (fun next e => e.merging = d.merging ∧
      Takes e.store (Merges e.store d.merging f) id sofar index next) := by
  unfold addMember
  refine (child_follows ctx _ hs hid fun _ h => hR.schemas h).bind
    fun found e hde ⟨he, hfound⟩ => ?_
  have hse := (hR.grows hde).sound hs
  have hmerging : e.merging = d.merging := by rw [he]
  refine Follows.after (a := e.store.node found.id) rfl ?_
  by_cases hparent : (found.byReference && !sofar.settled &&
      (e.store.node found.id).keywords.family.isSome) = true
  · simp only [hparent, if_true]
    exact Follows.pure ⟨hmerging, Takes.parent hfound hparent⟩
  · rw [if_neg hparent]
    simp only [bind_ite]
    rw [Bool.not_eq_true] at hparent
    have hmember : Follows R (if (e.store.node found.id).shape = .allOf then merge found.id
        else pure found.id) e (fun member t => t.merging = d.merging ∧
          if (e.store.node found.id).shape = .allOf then Merges t.store d.merging f found.id member
          else member = found.id) := by
      by_cases hshape : (e.store.node found.id).shape = .allOf
      · simp only [if_pos hshape]
        rw [← hmerging]
        exact hmerge found.id e hse (hfound.has hse)
      · simp only [if_neg hshape]
        exact Follows.pure ⟨hmerging, rfl⟩
    refine hmember.bind fun member t het ⟨ht, hm⟩ => Follows.after (a := t.store.node member) rfl ?_
    refine Follows.lift_bind fun content hcontent => Follows.pure ⟨ht, ?_⟩
    have hg := hR.grows het
    have hnode := hg.node (hfound.has hse)
    have hfound' := hfound.grows hse ((hR.grows hde).has hid) hg
    rw [← hnode] at hm hparent
    exact Takes.part hfound' hparent hm hcontent

/-- The state while the members of a schema are taken in: the schema is on the stack. -/
structure TakingIn (f : Nat) (d : Draft) (id : NodeId) (done : List Nat) (sofar : AllOf)
    (e : Draft) : Prop where
  sound : e.store.Sound
  grows : d.store.Grows e.store
  merging : e.merging = id :: d.merging
  taken : TakesAll e.store (Merges e.store d.merging f) id done (unmerged (d.store.node id)) sofar

theorem TakingIn.next (hR : Harmless R)
    (hmerge : ∀ a d, d.store.Sound → d.store.Has a → Follows R (mergeAllOf ctx f a) d
      (fun b e => e.merging = d.merging ∧ Merges e.store d.merging f a b))
    {d e : Draft} {id : NodeId} (hid : d.store.Has id) {done : List Nat} {sofar : AllOf}
    (h : TakingIn f d id done sofar e) (index : Nat) :
    Follows R (addMember ctx (mergeAllOf ctx f) id sofar index) e
      (fun next t => TakingIn f d id (done ++ [index]) next t) := by
  have hide := h.grows.has hid
  refine (addMember_follows hR hmerge h.sound hide sofar index).imp
    fun next t het ⟨ht, htakes⟩ => ?_
  have hg := hR.grows het
  rw [h.merging] at ht htakes
  refine ⟨hg.sound h.sound, IsTrans.trans _ _ _ h.grows hg, ht, ?_⟩
  exact (h.taken.grows h.sound hg hide).snoc _ _ _ (htakes.unbar (List.subset_cons_self _ _))

theorem mergeAllOf_walk (hR : Harmless R)
    (hmerge : ∀ a d, d.store.Sound → d.store.Has a → Follows R (mergeAllOf ctx f a) d
      (fun b e => e.merging = d.merging ∧ Merges e.store d.merging f a b))
    {d : Draft} {id : NodeId} (hs : d.store.Sound) (hid : d.store.Has id)
    (hpush : id ∉ d.merging → R d { d with merging := id :: d.merging }) :
    Follows R (mergeAllOf ctx (f + 1) id) d (fun made e => e.merging = d.merging ∧
      Merges e.store d.merging (f + 1) id made) := by
  unfold mergeAllOf
  refine Follows.after (a := d.store.node id) rfl (Follows.after (a := d) rfl ?_)
  by_cases hbar : id ∈ d.merging
  · simp only [List.contains_iff_mem, hbar, if_true]
    exact Follows.throw_bind
  · simp only [List.contains_iff_mem, hbar, if_false]
    refine Follows.change_bind (hpush hbar) ?_
    let count := ((d.store.node id).keywords.allOf.getD []).length
    have hmembers : Follows R ((List.range count).foldlM (addMember ctx (mergeAllOf ctx f) id)
          (unmerged (d.store.node id))) { d with merging := id :: d.merging }
        (fun all e => TakingIn f d id (List.range count) all e) := by
      have hfold := Follows.foldlM (R := R) (f := addMember ctx (mergeAllOf ctx f) id)
        (I := fun sofar rest e => ∃ done, List.range count = done ++ rest ∧
          TakingIn f d id done sofar e)
        (fun sofar index rest e ⟨done, hdone, h⟩ =>
          (h.next hR hmerge hid index).imp fun next t _ ht =>
            ⟨done ++ [index], by simp [hdone], ht⟩)
      have hstart : TakingIn f d id [] (unmerged (d.store.node id))
          { d with merging := id :: d.merging } := ⟨hs, refl _, rfl, rfl⟩
      refine (hfold _ _ _ ⟨[], rfl, hstart⟩).imp fun all e _ ⟨done, hdone, h⟩ => ?_
      rw [hdone, List.append_nil]
      exact h
    refine hmembers.bind fun all e _ h => Follows.change_bind (hR.pop e) ?_
    refine Follows.lift_bind fun own hown => ?_
    have hmake := Store.synthesize_grows ctx.files
      ((d.store.node id).location.below ["allOf"]) id
        ((extended all.parent all.merged).merge own) h.sound
    refine (inStore_follows (d := { e with merging := e.merging.tail }) hmake
      fun st hg => hR.schemas hg).imp fun made t het ⟨ht, hplace⟩ => ?_
    have hg := hR.grows het
    have hnode := (IsTrans.trans _ _ _ h.grows hg : d.store.Grows t.store).node hid
    refine ⟨by rw [ht, h.merging]; rfl, hg.has (h.grows.has hid), hbar, ?_, ⟨all, ?_⟩, own, ?_⟩
    · rw [hnode]
      exact hplace
    · rw [hnode]
      exact h.taken.grows h.sound hg (h.grows.has hid)
    · rw [hnode]
      exact hown

end Walk

/-- Schemas stay known, and what was merged stays merged for the stack there is. -/
structure Remembers (d e : Draft) : Prop where
  grows : d.store.Grows e.store
  merges : d.store.Sound → ∀ {k id made}, Merges d.store d.merging k id made →
    Merges e.store e.merging k id made

/-- Nothing but schemas and the stack of open merges changed. -/
structure Scans (d e : Draft) : Prop extends Remembers d e where
  graph : e.graph = d.graph
  registry : e.registry = d.registry
  families : e.families = d.families

instance : IsPreorder Draft Remembers where
  refl d := ⟨refl d.store, fun _ {_ _ _} h => h⟩
  trans _ _ _ h k := ⟨IsTrans.trans _ _ _ h.grows k.grows,
    fun hs {_ _ _} hm => k.merges (h.grows.sound hs) (h.merges hs hm)⟩

instance : IsPreorder Draft Scans where
  refl d := ⟨refl d, rfl, rfl, rfl⟩
  trans _ _ _ h k := ⟨IsTrans.trans _ _ _ h.toRemembers k.toRemembers, k.graph.trans h.graph,
    k.registry.trans h.registry, k.families.trans h.families⟩

instance : IsPreorder Draft (fun d e => d.store.Grows e.store) where
  refl d := refl d.store
  trans _ _ _ h k := IsTrans.trans _ _ _ h k

theorem harmless_grows : Harmless fun d e => d.store.Grows e.store where
  grows h := h
  schemas hg := hg
  pop d := refl d.store

theorem scans_schemas {d : Draft} {st : Store} (hg : d.store.Grows st) :
    Scans d { d with store := st } :=
  ⟨⟨hg, fun hs {_ _ _} hm => hm.grows hs hg⟩, rfl, rfl, rfl⟩

theorem harmless_scans : Harmless Scans where
  grows h := h.grows
  schemas hg := scans_schemas hg
  pop d := ⟨⟨refl d.store, fun _ {_ _ _} hm => hm.unbar fun _ h => List.mem_of_mem_tail h⟩,
    rfl, rfl, rfl⟩

theorem scans_push {d : Draft} {id : NodeId} (h : ∀ k m, ¬ Merges d.store d.merging k id m) :
    Scans d { d with merging := id :: d.merging } :=
  ⟨⟨refl d.store, fun _ {k _ _} hm => hm.bar (h k)⟩, rfl, rfl, rfl⟩

theorem mergeAllOf_grows : ∀ (f : Nat) (id : NodeId) (d : Draft), d.store.Sound → d.store.Has id →
    Follows (fun d e => d.store.Grows e.store) (mergeAllOf ctx f id) d
      (fun made e => e.merging = d.merging ∧
      Merges e.store d.merging f id made) := by
  intro f
  induction f with
  | zero => exact fun _ _ _ _ => Follows.throw
  | succ f ih =>
    intro id d hs hid
    exact mergeAllOf_walk harmless_grows (fun a e hs ha => ih a e hs ha) hs hid
      fun _ => refl d.store

theorem mergeAllOf_scans (ctx : Context) :
    ∀ (f : Nat) (id : NodeId) (d : Draft), d.store.Sound → d.store.Has id →
    Follows Scans (mergeAllOf ctx f id) d (fun made e => e.merging = d.merging ∧
      Merges e.store d.merging f id made) := by
  intro f
  induction f with
  | zero => exact fun _ _ _ _ => Follows.throw
  | succ f ih =>
    intro id d hs hid
    by_cases hdone : ∃ k made, Merges d.store d.merging k id made
    · obtain ⟨k, made, hm⟩ := hdone
      intro r e hx hr
      obtain ⟨-, rfl⟩ := mergeAllOf_of_merges hm hx hr
      exact ⟨refl e, ((mergeAllOf_grows _ id e hs hid) r e hx hr).2⟩
    · exact mergeAllOf_walk harmless_scans (fun a e hs ha => ih a e hs ha) hs hid
        fun _ => scans_push fun k m hm => hdone ⟨k, m, hm⟩

end SchemaBeans.Drafting
