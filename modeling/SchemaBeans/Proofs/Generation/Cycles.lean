import Mathlib.Logic.Relation
import SchemaBeans.Proofs.Generation.MergingRuns
import SchemaBeans.Proofs.Reference.Anchoring

/-! # Cycles of merged schemas

A merge goes from a schema to the members of its `allOf`, through references, and leaves out the
member that becomes what the schema extends. When it refuses a schema as a member of itself, the
schema is one that it came by, or one that stood on the stack of open merges to begin with. -/
namespace SchemaBeans

def Fault.Inclusion (place : Location) (fault : Fault) : Prop :=
  fault = .unsupported place .allOfIncludesItself

namespace Store

open Drafting (ownContent)

variable {files : FileSystem} {st : Store}

abbrev Blameless {α : Type} (action : Action α) (st : Store) : Prop :=
  Faults action st fun fault _ => ∀ place, ¬ fault.Inclusion place

theorem blameless_noPointer {fault : Fault} (h : Fault.NoPointer fault) (place : Location) :
    ¬ fault.Inclusion place := by
  obtain ⟨reference, rfl⟩ := h
  rintro ⟨⟩

theorem keywordsOf_blameless {place : Location} {content : Json} {fault : Fault}
    (h : keywordsOf place content = .error fault) (other : Location) : ¬ fault.Inclusion other := by
  rintro rfl
  unfold keywordsOf at h
  split at h
  · split at h <;> cases h
  all_goals cases h

theorem fetch_blameless {name : String} {fault : Fault} (h : fetch files name = .error fault)
    (place : Location) : ¬ fault.Inclusion place := by
  rintro rfl
  unfold fetch at h
  dsimp only at h
  split at h
  · split at h
    · cases h
    · split at h <;> cases h
  · cases h

theorem document_blameless (name : String) : Blameless (document files name) st := by
  unfold document
  refine Faults.after (a := st) rfl ?_
  cases st.documents.lookup name with
  | some content => exact Faults.pure content
  | none =>
    exact (Faults.lift fun _ => fetch_blameless).bind fun _ _ _ =>
      (Faults.change _).bind fun _ _ _ => Faults.pure _

theorem materialize_blameless {step : Location → Action NodeId}
    (hstep : ∀ target st, Blameless (step target) st) (place : Location) (parent : Option NodeId)
    (content : Json) : Blameless (materialize step place parent content) st := by
  unfold materialize
  refine (Faults.lift fun _ => keywordsOf_blameless).bind fun keywords _ _ => ?_
  cases keywords.reference with
  | some reference =>
    refine (Faults.lift fun _ h => blameless_noPointer ⟨_, Location.ofReference_error h⟩).bind
      fun target t _ => (hstep target t).bind fun _ _ _ => (Faults.change _).bind fun _ _ _ =>
        Faults.pure _
  | none =>
    simp only
    cases Shape.classify keywords with
    | error name => exact Faults.throw fun _ h => by cases h
    | ok shape =>
      intro fault t h
      cases h

theorem follow_blameless : ∀ (fuel : Nat) (chain : List Location) (place : Location) (st : Store),
    Blameless (follow files fuel chain place) st := by
  intro fuel
  induction fuel with
  | zero => exact fun _ _ _ => Faults.throw fun _ h => by cases h
  | succ fuel ih =>
    intro chain place st
    unfold follow
    refine Faults.after (a := st) rfl ?_
    cases st.id? place with
    | some id => exact Faults.pure id
    | none =>
      simp only
      split
      · exact (Faults.throw fun _ h => by cases h)
      · refine (document_blameless _).bind fun content t _ => ?_
        cases content.lookup? place.pointer with
        | none => exact Faults.throw fun _ h => by cases h
        | some part => exact materialize_blameless (fun target u => ih _ target u) _ _ _

theorem child_blameless (parent : NodeId) (segments : List String) :
    Blameless (child files parent segments) st := by
  unfold child
  refine Faults.after (a := st) rfl (Faults.after (a := st) rfl ?_)
  simp only
  cases st.id? ((st.node parent).location.below segments) with
  | some id => exact Faults.pure _
  | none =>
    simp only
    cases (st.node parent).content.descend? segments with
    | none => exact (Faults.throw fun _ h => by cases h).bind fun _ _ h => by cases h
    | some content =>
      refine Faults.after (a := st) rfl ?_
      exact (materialize_blameless (fun target u => follow_blameless _ _ target u) _ _ _).bind
        fun id t _ => Faults.after (a := t) rfl (Faults.pure _)

theorem synthesize_blameless (place : Location) (parent : NodeId) (content : Json) :
    Blameless (synthesize files place parent content) st := by
  unfold synthesize
  refine Faults.after (a := st) rfl ?_
  cases st.id? place with
  | some id => exact Faults.pure id
  | none =>
    refine Faults.after (a := st) rfl ?_
    exact materialize_blameless (fun target u => follow_blameless _ _ target u) _ _ _

/-- The member at an index becomes what the schema extends: the schema extends nothing by itself,
and this is the first member that a reference leads to and that carries a discriminator. -/
structure Extends (st : Store) (id : NodeId) (index : Nat) : Prop where
  free : (ownContent (st.node id).content).member? "extends" = none
  family : ∃ found, st.Found id ["allOf", toString index] found ∧ found.byReference = true ∧
    (st.node found.id).keywords.family.isSome
  first : ∀ earlier < index, ∀ found, st.Found id ["allOf", toString earlier] found →
    found.byReference = true → (st.node found.id).keywords.family = none

def Member (st : Store) (a b : NodeId) : Prop :=
  ∃ index found, index < ((st.node a).keywords.allOf.getD []).length ∧
    st.Found a ["allOf", toString index] found ∧ found.id = b ∧ ¬ st.Extends a index

/-- A merge that starts at the schema comes to one at the place that stands on the stack already or
is among its own members. -/
def Returns (st : Store) (stack : List NodeId) (id : NodeId) (place : Location) : Prop :=
  ∃ m, Relation.ReflTransGen st.Member id m ∧ (st.node m).location = place ∧
    (m ∈ stack ∨ Relation.TransGen st.Member m m)

end Store

namespace Drafting

variable {ctx : Context} {d e : Draft} {id : NodeId} {f : Nat}

theorem inStore_faults {α : Type} {action : Store.Action α} {E : Fault → Draft → Prop}
    (h : Faults action d.store fun fault st => E fault { d with store := st }) :
    Faults (inStore action) d E := by
  intro fault e hx
  rw [run_inStore] at hx
  obtain ⟨hfault, rfl⟩ := Prod.mk.inj hx
  exact h fault _ (Prod.ext hfault rfl)

/-- A merge counts something as extended only for the reasons that `Extends` names. -/
theorem TakesAll.settled {st : Store} {merges : NodeId → NodeId → Prop} {all : AllOf} :
    ∀ {indices : List Nat} {sofar : AllOf}, TakesAll st merges id indices sofar all →
      all.settled = true → sofar.settled = true ∨
        ∃ index ∈ indices, ∃ found, st.Found id ["allOf", toString index] found ∧
          found.byReference = true ∧ (st.node found.id).keywords.family.isSome := by
  intro indices
  induction indices with
  | nil =>
    rintro sofar rfl h
    exact .inl h
  | cons index rest ih =>
    rintro sofar ⟨next, hnext, hrest⟩ h
    rcases ih hrest h with hsettled | ⟨other, hother, hfound⟩
    · cases hnext with
      | @parent found hfound hparent =>
        simp only [Bool.and_eq_true] at hparent
        exact .inr ⟨index, by simp, found, hfound, hparent.1.1, hparent.2⟩
      | part => exact .inl hsettled
    · exact .inr ⟨other, List.mem_cons_of_mem _ hother, hfound⟩

theorem TakingIn.not_extends {sofar : AllOf} {index : Nat} (hid : d.store.Has id)
    (h : TakingIn f d id (List.range index) sofar e) {st : Store}
    (hg : e.store.Grows st) {found : Store.Child}
    (hfound : st.Found id ["allOf", toString index] found)
    (hparent : (found.byReference && !sofar.settled &&
      (st.node found.id).keywords.family.isSome) = false) : ¬ st.Extends id index := by
  rintro ⟨hfree, ⟨other, hother, hby, hfamily⟩, hfirst⟩
  obtain rfl := hfound.unique hother
  have hsettled : sofar.settled = true := by simpa [hby, hfamily] using hparent
  rcases h.taken.settled hsettled with hown | ⟨earlier, hearlier, taken, htaken, htby, htfamily⟩
  · rw [← (IsTrans.trans _ _ _ h.grows hg : d.store.Grows st).node hid] at hown
    simp [unmerged, hfree] at hown
  · have hnone := hfirst earlier (List.mem_range.mp hearlier) taken
      (htaken.grows h.sound (h.grows.has hid) hg) htby
    rw [hg.node (htaken.has h.sound)] at hnone
    rw [hnone] at htfamily
    cases htfamily

theorem returns_of_member {st : Store} {stack : List NodeId} {member : NodeId} {place : Location}
    (hedge : st.Member id member) (h : st.Returns (id :: stack) member place) :
    st.Returns stack id place := by
  obtain ⟨m, hpath, hplace, hm⟩ := h
  refine ⟨m, .head hedge hpath, hplace, ?_⟩
  rcases hm with hm | hm
  · rcases List.mem_cons.mp hm with rfl | hm
    · exact .inr (.head' hedge hpath)
    · exact .inl hm
  · exact .inr hm

theorem addMember_returns {sofar : AllOf} {index : Nat} (hid : d.store.Has id)
    (h : TakingIn f d id (List.range index) sofar e)
    (hindex : index < ((d.store.node id).keywords.allOf.getD []).length)
    (hmerge : ∀ a d, d.store.Sound → d.store.Has a → Faults (mergeAllOf ctx f a) d
      fun fault e => ∀ place, fault.Inclusion place → e.store.Returns d.merging a place) :
    Faults (addMember ctx (mergeAllOf ctx f) id sofar index) e
      fun fault t => ∀ place, fault.Inclusion place → t.store.Returns d.merging id place := by
  have hanchor : ∀ {v : Json} {base : String} {fault : Fault} {t : Draft},
      v.anchor base = .error fault →
      ∀ place, fault.Inclusion place → t.store.Returns d.merging id place :=
    fun h place hplace => absurd hplace (Store.blameless_noPointer (Json.anchor_error h) place)
  have hide := h.grows.has hid
  unfold addMember
  refine (inStore_faults ((Store.child_blameless id _).imp fun fault _ hno place hplace =>
    absurd hplace (hno place))).bind fun found t hrun => ?_
  obtain ⟨hg, ht, hfound⟩ := (child_follows (R := fun d e => d.store.Grows e.store) ctx _ h.sound
    hide fun _ hg => hg).success hrun
  refine Faults.after (a := t.store.node found.id) rfl ?_
  by_cases hparent : (found.byReference && !sofar.settled &&
      (t.store.node found.id).keywords.family.isSome) = true
  · simp only [hparent, if_true]
    exact Faults.pure _
  · rw [if_neg hparent]
    simp only [bind_ite]
    rw [Bool.not_eq_true] at hparent
    refine Faults.bind ?_ fun member u _ => Faults.after (a := u.store.node member) rfl
      ((Faults.lift fun _ => hanchor).bind fun _ _ _ => Faults.pure _)
    by_cases hshape : (t.store.node found.id).shape = .allOf
    · simp only [if_pos hshape]
      intro fault u hu place hplace
      have hst := hg.sound h.sound
      have hmerging : t.merging = id :: d.merging := by rw [ht]; exact h.merging
      have hback := hmerge found.id t hst (hfound.has hst) fault u hu place hplace
      rw [hmerging] at hback
      have hgu := ((mergeAllOf_grows f found.id t hst (hfound.has hst)) _ _ hu
        (by rw [hplace]; simp)).1
      have hidt := hg.has hide
      refine returns_of_member ⟨index, found, ?_, hfound.grows hst hidt hgu, rfl, ?_⟩ hback
      · rw [hgu.node hidt, hg.node hide, h.grows.node hid]
        exact hindex
      · refine h.not_extends hid (IsTrans.trans _ _ _ hg hgu) (hfound.grows hst hidt hgu) ?_
        rw [hgu.node (hfound.has hst)]
        exact hparent
    · simp only [if_neg hshape]
      exact Faults.pure _

theorem mergeAllOf_returns : ∀ (f : Nat) (id : NodeId) (d : Draft), d.store.Sound →
    d.store.Has id → Faults (mergeAllOf ctx f id) d
      fun fault e => ∀ place, fault.Inclusion place → e.store.Returns d.merging id place := by
  intro f
  induction f with
  | zero => exact fun _ _ _ _ => Faults.throw fun _ h => by cases h
  | succ f ih =>
    intro id d hs hid
    unfold mergeAllOf
    refine Faults.after (a := d.store.node id) rfl (Faults.after (a := d) rfl ?_)
    by_cases hbar : id ∈ d.merging
    · simp only [List.contains_iff_mem, hbar, if_true]
      refine Faults.bind (Faults.throw ?_) fun _ _ h => by cases h
      intro place hplace
      cases hplace
      exact ⟨id, .refl, rfl, .inl hbar⟩
    · simp only [List.contains_iff_mem, hbar, if_false]
      refine (Faults.change _).bind fun _ e hpush => ?_
      cases hpush
      let count := ((d.store.node id).keywords.allOf.getD []).length
      refine Faults.bind ?_ fun all e _ => (Faults.change _).bind fun _ e _ =>
        (Faults.lift fun _ h place hplace =>
          absurd hplace (Store.blameless_noPointer (Json.anchor_error h) place)).bind fun own t _ =>
        inStore_faults ((Store.synthesize_blameless _ _ _).imp fun _ _ hno place hplace =>
          absurd hplace (hno place))
      have hfold := Faults.foldlM
        (E := fun fault e => ∀ place, fault.Inclusion place → e.store.Returns d.merging id place)
        (f := addMember ctx (mergeAllOf ctx f) id)
        (I := fun sofar rest e => ∃ index, List.range count = List.range index ++ rest ∧
          TakingIn f d id (List.range index) sofar e)
        (fun sofar index rest e hsofar => by
          obtain ⟨next, hnext, h⟩ := hsofar
          have hat : (List.range count)[next]? = some index := by simp [hnext]
          obtain ⟨hlt, hval⟩ := List.getElem?_eq_some_iff.mp hat
          rw [List.length_range] at hlt
          rw [List.getElem_range] at hval
          subst hval
          refine ⟨addMember_returns hid h hlt fun a d hs ha => ih a d hs ha,
            fun sofar' t hrun => ?_⟩
          refine ⟨next + 1, by rw [hnext, List.range_succ, List.append_assoc]; rfl, ?_⟩
          rw [List.range_succ]
          exact ((h.next harmless_grows (@mergeAllOf_grows ctx f) hid next).success hrun).2)
      have hstart : TakingIn f d id [] (unmerged (d.store.node id))
          { d with merging := id :: d.merging } := ⟨hs, refl _, rfl, rfl⟩
      exact hfold _ _ _ ⟨0, rfl, hstart⟩

end Drafting

end SchemaBeans
