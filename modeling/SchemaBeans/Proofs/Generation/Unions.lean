import SchemaBeans.Generation.Rules
import SchemaBeans.Proofs.Generation.MergingRuns

/-! # The branches of a union

Whether a union gets a type of its own depends on its branches and on what they generate as. Both
are read off the store, the same way every time. -/
namespace SchemaBeans.Drafting

variable {ctx : Context} {d e : Draft} {id : NodeId} {k f : Nat}

/-- What a schema generates as is known: its own shape, or that of its merge. -/
inductive Effective (d : Draft) (k : Nat) (id : NodeId) : Shape → Prop
  | own (h : (d.store.node id).shape ≠ .allOf) : Effective d k id (d.store.node id).shape
  | merged {made : NodeId} (h : (d.store.node id).shape = .allOf)
      (hm : Merges d.store d.merging k id made) : Effective d k id (d.store.node made).shape

/-- The branches of a union that count are known. -/
def Branches (st : Store) (id : NodeId) (branches : List Store.Child) : Prop :=
  ∃ all, List.Forall₂
      (fun i found => st.Found id [(branchList (st.node id).keywords).1, toString i] found)
      (List.range (branchList (st.node id).keywords).2) all ∧
    branches = all.filter fun branch => decide ((st.node branch.id).shape ≠ .primitive .null)

/-- The branches of a union are known, and what they generate as. -/
structure Plan (d : Draft) (k : Nat) (id : NodeId) (found : List Store.Child)
    (shapes : List Shape) : Prop where
  branches : Branches d.store id found
  shapes : List.Forall₂ (fun branch shape => Effective d k branch.id shape) found shapes

def marker? (k : Keywords) (branches : List Store.Child) (shapes : List Shape) : Option TypeKind :=
  match branches, k.hasProperties || k.family.isSome with
  | [_], false => none
  | _, _ =>
    if (!branches.isEmpty && shapes.all (· == .object)) = false then none
    else some (if k.hasProperties then .bean else .interface)

/-- A union gets a type of its own, which the branches are linked to. -/
def markerOutcome (ctx : Context) (rule : Rule) (request : Request) (id : NodeId) (k : Keywords)
    (found : List Store.Child) (kind : TypeKind) : Drafting TypeRef := do
  match ← declare ctx request id kind with
  | .existing type => pure (.generated type)
  | .created marker =>
    if kind = .bean then populate ctx rule marker id request.name
    else
      match k.family with
      | some metadata => declareFamily ctx rule marker id metadata
      | none => pure ()
    found.zipIdx.forM (addBranch rule request marker kind)
    pure (.generated marker)

/-- What is left to do for a union once its branches are read. -/
def unionOutcome (ctx : Context) (rule : Rule) (request : Request) (id : NodeId) (k : Keywords)
    (found : List Store.Child) (shapes : List Shape) : Drafting TypeRef :=
  match found, k.hasProperties || k.family.isSome with
  | [only], false => branchRule rule request only request.name
  | _, _ =>
    if (!found.isEmpty && shapes.all (· == .object)) = false then collapse rule request found
    else markerOutcome ctx rule request id k found (if k.hasProperties then .bean else .interface)

section Outcomes

variable {k : Keywords} {found : List Store.Child} {shapes : List Shape} {kind : TypeKind}
  {rule : Rule} {request : Request}

theorem marker?_of_many
    (hmany : ∀ only, found = [only] → (k.hasProperties || k.family.isSome) = true) :
    marker? k found shapes =
      if (!found.isEmpty && shapes.all (· == .object)) = false then none
      else some (if k.hasProperties then .bean else .interface) := by
  unfold marker?
  split
  · rename_i only hown
    rw [hmany only rfl] at hown
    cases hown
  · rfl

theorem unionOutcome_of_many
    (hmany : ∀ only, found = [only] → (k.hasProperties || k.family.isSome) = true) :
    unionOutcome ctx rule request id k found shapes =
      if (!found.isEmpty && shapes.all (· == .object)) = false then collapse rule request found
      else markerOutcome ctx rule request id k found
        (if k.hasProperties then .bean else .interface) := by
  unfold unionOutcome
  split
  · rename_i only hown
    rw [hmany only rfl] at hown
    cases hown
  · rfl

theorem unionOutcome_of_none (h : marker? k found shapes = none) :
    (∃ only, found = [only] ∧ unionOutcome ctx rule request id k found shapes =
      branchRule rule request only request.name) ∨
    unionOutcome ctx rule request id k found shapes = collapse rule request found := by
  by_cases hmany : ∀ only, found = [only] → (k.hasProperties || k.family.isSome) = true
  · rw [marker?_of_many hmany] at h
    rw [unionOutcome_of_many hmany]
    by_cases hobjects : (!found.isEmpty && shapes.all (· == .object)) = false
    · rw [if_pos hobjects]
      exact Or.inr rfl
    · rw [if_neg hobjects] at h
      cases h
  · simp only [not_forall, Bool.not_eq_true] at hmany
    obtain ⟨only, rfl, hown⟩ := hmany
    unfold unionOutcome
    rw [hown]
    exact Or.inl ⟨only, rfl, rfl⟩

theorem unionOutcome_of_some (h : marker? k found shapes = some kind) :
    kind ≠ .enum ∧ unionOutcome ctx rule request id k found shapes =
      markerOutcome ctx rule request id k found kind := by
  have hmany : ∀ only, found = [only] → (k.hasProperties || k.family.isSome) = true := by
    rintro only rfl
    by_contra hown
    rw [Bool.not_eq_true] at hown
    unfold marker? at h
    rw [hown] at h
    cases h
  rw [marker?_of_many hmany] at h
  rw [unionOutcome_of_many hmany]
  by_cases hobjects : (!found.isEmpty && shapes.all (· == .object)) = false
  · rw [if_pos hobjects] at h
    cases h
  · rw [if_neg hobjects] at h ⊢
    obtain rfl := Option.some.inj h
    refine ⟨?_, rfl⟩
    split <;> simp

end Outcomes

theorem Effective.mono {shape : Shape} (hle : k ≤ f) (h : Effective d k id shape) :
    Effective d f id shape := by
  cases h with
  | own h => exact .own h
  | merged h hm => exact .merged h (hm.mono hle)

theorem Effective.keeps {shape : Shape} (hs : d.store.Sound) (hid : d.store.Has id)
    (hr : Remembers d e) (h : Effective d k id shape) : Effective e k id shape := by
  have hnode := hr.grows.node hid
  cases h with
  | own h =>
    rw [← hnode] at h ⊢
    exact .own h
  | merged h hm =>
    rw [← hnode] at h
    rw [← hr.grows.node (hm.has_made hs)]
    exact .merged h (hr.merges hs hm)

theorem Effective.unique {l : Nat} {a b : Shape} (ha : Effective d k id a)
    (hb : Effective d l id b) : a = b := by
  cases ha with
  | own h =>
    cases hb with
    | own => rfl
    | merged h' => exact absurd h' h
  | merged h hm =>
    cases hb with
    | own h' => exact absurd h h'
    | merged _ hm' => rw [hm.unique hm']

theorem found_has {st : Store} {segments : Nat → List String} (hs : st.Sound) {indices : List Nat}
    {all : List Store.Child}
    (h : List.Forall₂ (fun i found => st.Found id (segments i) found) indices all) :
    ∀ found ∈ all, st.Has found.id :=
  forall_mem_of_forall₂ (fun _ _ hf => hf.has hs) h

theorem Branches.has {st : Store} {found : List Store.Child} (hs : st.Sound)
    (h : Branches st id found) : ∀ branch ∈ found, st.Has branch.id := by
  obtain ⟨all, hall, rfl⟩ := h
  intro branch hbranch
  exact found_has hs hall branch (List.mem_of_mem_filter hbranch)

theorem Branches.grows {st u : Store} {found : List Store.Child} (hs : st.Sound) (hid : st.Has id)
    (hg : st.Grows u) (h : Branches st id found) : Branches u id found := by
  obtain ⟨all, hall, rfl⟩ := h
  unfold Branches
  rw [hg.node hid]
  refine ⟨all, hall.imp fun _ _ hf => hf.grows hs hid hg,
    List.filter_congr fun branch hbranch => ?_⟩
  rw [hg.node (found_has hs hall branch hbranch)]

theorem Branches.unique {st : Store} {a b : List Store.Child} (ha : Branches st id a)
    (hb : Branches st id b) : a = b := by
  obtain ⟨x, hx, rfl⟩ := ha
  obtain ⟨y, hy, rfl⟩ := hb
  rw [List.right_unique_forall₂' (fun _ _ _ h h' => h.unique h') hx hy]

section Plan

variable {found : List Store.Child} {shapes : List Shape}

theorem Plan.mono (hle : k ≤ f) (h : Plan d k id found shapes) : Plan d f id found shapes :=
  ⟨h.branches, h.shapes.imp fun _ _ he => he.mono hle⟩

theorem Plan.keeps (hs : d.store.Sound) (hid : d.store.Has id) (hr : Remembers d e)
    (h : Plan d k id found shapes) : Plan e k id found shapes := by
  refine ⟨h.branches.grows hs hid hr.grows, ?_⟩
  have hboth := (List.forall₂_and_left _ _).mpr ⟨h.branches.has hs, h.shapes⟩
  exact hboth.imp fun _ _ ⟨hb, he⟩ => he.keeps hs hb hr

theorem Plan.unique {l : Nat} {found' : List Store.Child} {shapes' : List Shape}
    (h : Plan d k id found shapes) (h' : Plan d l id found' shapes') :
    found = found' ∧ shapes = shapes' := by
  obtain rfl := h.branches.unique h'.branches
  have hmax := h.shapes.imp fun _ _ he => he.mono (Nat.le_max_left k l)
  have hmax' := h'.shapes.imp fun _ _ he => he.mono (Nat.le_max_right k l)
  exact ⟨rfl, List.right_unique_forall₂' (fun _ _ _ ha hb => ha.unique hb) hmax hmax'⟩

end Plan

theorem branches_repeats (ctx : Context) {found : List Store.Child}
    (h : Branches d.store id found) :
    Repeats (branches ctx id (branchList (d.store.node id).keywords).1
      (branchList (d.store.node id).keywords).2) d found := by
  obtain ⟨all, hall, rfl⟩ := h
  unfold branches
  refine (Repeats.mapM (hall.imp fun _ _ hf => child_repeats ctx hf)).bind ?_
  refine Repeats.filterM (fun branch => ?_) all
  exact rfl

theorem branches_scans (ctx : Context) (hs : d.store.Sound) (hid : d.store.Has id) :
    Follows Scans (branches ctx id (branchList (d.store.node id).keywords).1
      (branchList (d.store.node id).keywords).2) d (fun found e => Branches e.store id found) := by
  unfold branches
  let keyword := (branchList (d.store.node id).keywords).1
  have hall := Follows.mapM (R := Scans) (f := fun i => child ctx id [keyword, toString i])
    (I := fun e => e.store.Sound ∧ e.store.Has id)
    (P := fun i found e => e.store.Found id [keyword, toString i] found)
    (fun _ _ s t ⟨hs, hid⟩ hst hf => hf.grows hs hid hst.grows)
    (List.range (branchList (d.store.node id).keywords).2)
    (fun i _ t ⟨ht, hidt⟩ => (child_follows ctx _ ht hidt fun _ hg => scans_schemas hg).imp
      fun found u htu ⟨_, hf⟩ => ⟨⟨htu.grows.sound ht, htu.grows.has hidt⟩, hf⟩)
  refine (hall d ⟨hs, hid⟩).bind fun all e hde ⟨_, hfound⟩ => ?_
  refine Follows.of_repeats (Repeats.filterM (fun branch => ?_) all) ⟨all, ?_, rfl⟩
  · exact rfl
  · rw [hde.grows.node hid]
    exact hfound

theorem effectiveShape_repeats (ctx : Context) {shape : Shape} (hle : k ≤ f)
    (h : Effective d k id shape) : Repeats (effectiveShape ctx f id) d shape := by
  unfold effectiveShape
  refine Repeats.bind (a := d.store.node id) rfl ?_
  cases h with
  | own h =>
    simp only [if_neg h]
    exact Repeats.pure d _
  | merged h hm =>
    simp only [if_pos h]
    exact (mergeAllOf_repeats hle hm).bind (Repeats.pure d _)

theorem effectiveShape_scans (hs : d.store.Sound) (hid : d.store.Has id) :
    Follows Scans (effectiveShape ctx f id) d (fun shape e => Effective e f id shape) := by
  unfold effectiveShape
  refine Follows.after (a := d.store.node id) rfl ?_
  by_cases h : (d.store.node id).shape = .allOf
  · simp only [if_pos h]
    refine (mergeAllOf_scans ctx f id d hs hid).bind fun made e hde ⟨hstack, hm⟩ => ?_
    rw [← hstack] at hm
    refine Follows.after (a := e.store.node made) rfl (Follows.pure (.merged ?_ hm))
    rw [hde.grows.node hid, h]
  · simp only [if_neg h]
    exact Follows.pure (.own h)

theorem effectiveShapes_scans (ctx : Context) (f : Nat) {found : List Store.Child}
    (hs : d.store.Sound) (hfound : ∀ branch ∈ found, d.store.Has branch.id) :
    Follows Scans (found.mapM fun branch => effectiveShape ctx f branch.id) d (fun shapes e =>
      List.Forall₂ (fun branch shape => Effective e f branch.id shape) found shapes) := by
  have hall := Follows.mapM (R := Scans)
    (f := fun (branch : Store.Child) => effectiveShape ctx f branch.id)
    (I := fun e => e.store.Sound ∧ ∀ branch ∈ found, e.store.Has branch.id)
    (P := fun branch shape e => e.store.Has branch.id ∧ Effective e f branch.id shape)
    (fun _ _ s t ⟨hs, _⟩ hst ⟨hhas, he⟩ => ⟨hst.grows.has hhas, he.keeps hs hhas hst.toRemembers⟩)
    found
    (fun branch hbranch s ⟨hs, hhas⟩ => by
      refine (effectiveShape_scans hs (hhas branch hbranch)).imp fun shape t hst he => ?_
      have hall : ∀ other ∈ found, t.store.Has other.id :=
        fun other hother => hst.grows.has (hhas other hother)
      exact ⟨⟨hst.grows.sound hs, hall⟩, hall branch hbranch, he⟩)
  exact (hall d ⟨hs, hfound⟩).imp fun shapes e _ ⟨_, hshapes⟩ => hshapes.imp fun _ _ h => h.2

end SchemaBeans.Drafting
