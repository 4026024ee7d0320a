import SchemaBeans.Proofs.Generation.MergingRuns
import SchemaBeans.Proofs.Generation.Standing
import SchemaBeans.Proofs.Store.Following

/-! # What a run has on record

Whatever the store of a run knows of a location can be found in the documents. Looking schemas up
and merging them puts nothing else on record, in whatever order it is done. -/
namespace SchemaBeans

namespace Store

variable {files : FileSystem} {lib : Library} {st u : Store} {place : Location} {content : Json}

/-- All that is on record is found in the documents. -/
structure Truthful (files : FileSystem) (lib : Library) (st : Store) : Prop extends Sound st where
  library : st.library files = lib
  finds : ∀ place id, st.id? place = some id →
    lib.Finds (.schema place (st.node id).location (st.node id).content)
  read : ∀ id, st.Has id → (st.node id).Read

/-- A step records nothing untrue. -/
def Learns (files : FileSystem) (lib : Library) (st u : Store) : Prop :=
  st.Truthful files lib → u.Truthful files lib

instance : IsPreorder Store (Learns files lib) where
  refl _ := id
  trans _ _ _ h k := k ∘ h

theorem Truthful.schema (h : st.Truthful files lib) {id : NodeId} (hid : st.Has id) :
    lib.Finds (.schema (st.node id).location (st.node id).location (st.node id).content) :=
  h.finds _ _ (h.own hid)

theorem Truthful.of_same (h : st.Truthful files lib) (hsame : SameNodes st u)
    (hlibrary : u.library files = lib) : u.Truthful files lib := by
  obtain ⟨documents, nodes, index⟩ := u
  obtain ⟨rfl, rfl⟩ := hsame
  exact ⟨⟨h.bound, h.own⟩, hlibrary, h.finds, h.read⟩

theorem truthful_of_empty (files : FileSystem) (documents : List (String × Json)) :
    Truthful files (Store.library files { documents }) { documents } where
  toSound := sound_of_empty rfl rfl
  library := rfl
  finds place id hid := by simp [id?] at hid
  read id hid := by simp [Has] at hid

theorem Truthful.bind (h : st.Truthful files lib) {id : NodeId} (hfree : st.id? place = none)
    (hid : st.Has id)
    (hfinds : lib.Finds (.schema place (st.node id).location (st.node id).content)) :
    (st.bind place id).Truthful files lib where
  toSound := (grows_bind hfree hid).sound h.toSound
  library := h.library
  read := h.read
  finds other i hi := by
    rw [id?_bind] at hi
    split at hi
    · rename_i hother
      cases hi
      rw [hother]
      exact hfinds
    · exact h.finds _ _ hi

theorem Truthful.add (h : st.Truthful files lib) {node : SchemaNode}
    (hfree : st.id? node.location = none) (hvalue : lib.Finds (.value node.location node.content))
    (hread : node.Read) : (st.add node).2.Truthful files lib where
  toSound := (grows_add node hfree).sound h.toSound
  library := h.library
  read id hid := by
    rcases has_add.mp hid with hold | rfl
    · rw [node_add_of_has node hold]
      exact h.read id hold
    · rw [node_add_self]
      exact hread
  finds other i hi := by
    rw [id?_add] at hi
    split at hi
    · rename_i hother
      cases hi
      rw [node_add_self, hother]
      exact .plain hvalue hread.keywords hread.plain
    · rw [node_add_of_has node (h.bound hi)]
      exact h.finds _ _ hi

theorem document_learns (h : st.Truthful files lib) (name : String) :
    Follows (Learns files lib) (document files name) st fun content t =>
      lib name = .ok content ∧ SameNodes st t ∧ t.Truthful files lib := by
  obtain ⟨t, hrun, hsame, hlibrary⟩ := document_run h.library name
  intro r u hx _
  rw [hrun] at hx
  cases hx
  have ht := h.of_same hsame hlibrary
  exact ⟨fun _ => ht, fun content hcontent => ⟨hcontent, hsame, ht⟩⟩

theorem materialize_learns {step : Location → Action NodeId} (hfree : st.id? place = none)
    (hvalue : lib.Finds (.value place content))
    (hstep : ∀ target, Follows (Learns files lib) (step target) st
      fun id t => t.id? target = some id ∧ t.id? place = none)
    (h : st.Truthful files lib) (parent : Option NodeId) :
    Follows (Learns files lib) (materialize step place parent content) st fun _ _ => True := by
  unfold materialize
  refine Follows.lift_bind fun keywords hread => ?_
  cases href : keywords.reference with
  | some reference =>
    refine Follows.lift_bind fun target htarget => ?_
    refine (hstep target).bind fun id t _ ⟨hid, hfree⟩ => ?_
    have hlearns : Learns files lib t (t.bind place id) := fun ht =>
      ht.bind hfree (ht.bound hid) (.refers hvalue hread href htarget (ht.finds _ _ hid))
    exact Follows.change_bind hlearns (Follows.pure trivial)
  | none =>
    simp only
    cases hshape : Shape.classify keywords with
    | error name => exact Follows.throw
    | ok shape =>
      intro r t hx _
      cases hx
      exact ⟨fun _ => h.add hfree hvalue ⟨hread, href, hshape⟩, fun _ _ => trivial⟩

/-- The location that is under way gets no node from what it leads to. -/
theorem follow_learns_free {fuel : Nat} {chain : List Location} {target : Location}
    (h : Follows (Learns files lib) (follow files fuel (place :: chain) target) st fun _ _ => True)
    (hs : st.Sound) (hfree : st.id? place = none) :
    Follows (Learns files lib) (follow files fuel (place :: chain) target) st
      fun id t => t.id? target = some id ∧ t.id? place = none :=
  (h.and (follow_spares fuel (place :: chain) target st hs)).imp
    fun _ _ _ ⟨_, hspares, hid⟩ => ⟨hid, hspares.free place (by simp) hfree⟩

theorem follow_learns (fuel : Nat) : ∀ (chain : List Location) (place : Location) (st : Store),
    st.Truthful files lib →
      Follows (Learns files lib) (follow files fuel chain place) st fun _ _ => True := by
  induction fuel with
  | zero => exact fun _ _ _ _ => Follows.throw
  | succ fuel ih =>
    intro chain place st h
    unfold follow
    refine Follows.after (a := st) rfl ?_
    cases hid : st.id? place with
    | some id => exact Follows.pure trivial
    | none =>
      simp only
      split
      · exact Follows.throw
      · refine (document_learns h place.document).bind fun content t _ ⟨hdocument, hsame, ht⟩ => ?_
        cases hpart : content.lookup? place.pointer with
        | none => exact Follows.throw
        | some part =>
          have hfree : t.id? place = none := by
            unfold id? at hid ⊢
            rw [hsame.index, hid]
          refine materialize_learns hfree (.document ⟨hdocument, hpart⟩) (fun target => ?_) ht none
          exact follow_learns_free (ih _ target t ht) ht.toSound hfree

theorem resolve_learns (h : st.Truthful files lib) (place : Location) :
    Follows (Learns files lib) (resolve files place) st fun _ _ => True :=
  Follows.after (a := st) rfl (follow_learns _ [] place st h)

theorem make_learns (h : st.Truthful files lib) (parent : NodeId) (hfree : st.id? place = none)
    (hvalue : lib.Finds (.value place content)) :
    Follows (Learns files lib)
      (materialize (follow files (st.reach files) [place]) place (some parent) content) st
      fun _ _ => True :=
  materialize_learns hfree hvalue
    (fun target => follow_learns_free (follow_learns _ _ target st h) h.toSound hfree) h _

theorem child_learns (h : st.Truthful files lib) {parent : NodeId} (hparent : st.Has parent)
    {segments : List String} (hsegments : Subschema segments) :
    Follows (Learns files lib) (child files parent segments) st fun _ _ => True := by
  unfold child
  refine Follows.after (a := st) rfl (Follows.after (a := st) rfl ?_)
  simp only
  cases hid : st.id? ((st.node parent).location.below segments) with
  | some id => exact Follows.pure trivial
  | none =>
    simp only
    cases hpart : (st.node parent).content.descend? segments with
    | none => exact Follows.throw_bind
    | some part =>
      refine Follows.after (a := st) rfl ?_
      refine (make_learns h parent hid (.child (h.schema hparent) hsegments hpart)).bind ?_
      exact fun id t _ _ => Follows.after (a := t) rfl (Follows.pure trivial)

theorem resolveReference_learns (h : st.Truthful files lib) (source : NodeId) (text : String) :
    Follows (Learns files lib) (resolveReference files source text) st fun _ _ => True :=
  Follows.after (a := st) rfl (Follows.lift_bind fun _ _ => resolve_learns h _)

theorem synthesize_learns (h : st.Truthful files lib) (parent : NodeId)
    (hvalue : lib.Finds (.value place content)) :
    Follows (Learns files lib) (synthesize files place parent content) st fun _ _ => True := by
  unfold synthesize
  refine Follows.after (a := st) rfl ?_
  cases hid : st.id? place with
  | some id => exact Follows.pure trivial
  | none => exact Follows.after (a := st) rfl (make_learns h parent hid hvalue)

end Store

namespace Drafting

open Library (TakenAsParent withMember)

variable {ctx : Context} {lib : Library} {st : Store} {d : Draft} {id : NodeId}

theorem ofType?_ne_allOf (name : String) : Shape.ofType? name ≠ some .allOf := by
  unfold Shape.ofType?
  split <;> simp

theorem classify_allOf {k : Keywords} {shape : Shape} (h : Shape.classify k = .ok shape) :
    shape = .allOf ↔ k.allOf.isSome = true := by
  unfold Shape.classify at h
  split at h
  · rename_i hsome
    cases h
    exact iff_of_true rfl hsome
  · rename_i hnone
    refine iff_of_false ?_ hnone
    rintro rfl
    repeat' split at h
    all_goals cases h
    rename_i hname
    exact ofType?_ne_allOf _ hname

theorem classify_union {k : Keywords} (h : Shape.classify k = .ok .union) :
    (k.oneOf.isSome || k.anyOf.isSome) = true := by
  unfold Shape.classify at h
  by_contra hnone
  rw [if_neg hnone] at h
  repeat' split at h
  all_goals cases h
  rename_i hname
  unfold Shape.ofType? at hname
  split at hname <;> cases hname

/-- A member that is taken in is found to be. -/
theorem finds_taken {files : FileSystem} (ht : st.Truthful files lib)
    {barred : List NodeId} {f : Nat} {sofar next : AllOf} {index : Nat}
    (hbefore : lib.Finds (.members (st.node id).location index sofar))
    (h : Takes st (Merges st barred f) id sofar index next) :
    lib.Finds (.members (st.node id).location (index + 1) next) := by
  cases h with
  | @parent found hfound hparent =>
    refine .parent hbefore (ht.finds _ _ hfound.known)
      (ht.read _ (hfound.has ht.toSound)).keywords ?_
    rw [hfound.byReference] at hparent
    simpa [TakenAsParent, and_assoc] using hparent
  | @part found member content hfound hparent hmember hcontent =>
    have hread := ht.read _ (hfound.has ht.toSound)
    have hfinds := ht.finds _ _ hfound.known
    have hnot : ¬ TakenAsParent ((st.node id).location.below ["allOf", toString index])
        (st.node found.id).location (st.node found.id).keywords sofar := by
      rw [hfound.byReference] at hparent
      simpa [TakenAsParent, and_assoc] using hparent
    have hpart : (if found.byReference then withoutFamily content else content) =
        if (st.node found.id).location = (st.node id).location.below ["allOf", toString index]
        then content else withoutFamily content := by
      rw [hfound.byReference]
      by_cases hsame : (st.node found.id).location =
          (st.node id).location.below ["allOf", toString index] <;> simp [hsame]
    rw [hpart]
    by_cases hshape : (st.node found.id).shape = .allOf
    · rw [if_pos hshape] at hmember
      exact .nested hbefore hfinds hread.keywords hnot ((classify_allOf hread.shape).mp hshape)
        (ht.finds _ _ hmember.place) hcontent
    · rw [if_neg hshape] at hmember
      subst hmember
      have hnone := mt (classify_allOf hread.shape).mpr hshape
      exact .part hbefore hfinds hread.keywords hnot (by simpa using hnone) hcontent

theorem finds_takenAll {files : FileSystem} (ht : st.Truthful files lib)
    {barred : List NodeId} {f : Nat} {all : AllOf} : ∀ (count start : Nat) (sofar : AllOf),
    lib.Finds (.members (st.node id).location start sofar) →
      TakesAll st (Merges st barred f) id (List.range' start count) sofar all →
        lib.Finds (.members (st.node id).location (start + count) all) := by
  intro count
  induction count with
  | zero =>
    rintro start sofar hbefore rfl
    exact hbefore
  | succ count ih =>
    rintro start sofar hbefore ⟨next, hnext, hrest⟩
    rw [Nat.add_comm count, ← Nat.add_assoc]
    exact ih _ next (finds_taken ht hbefore hnext) hrest

theorem finds_members {files : FileSystem} (ht : st.Truthful files lib) (hid : st.Has id)
    {barred : List NodeId} {f count : Nat} {all : AllOf}
    (h : TakesAll st (Merges st barred f) id (List.range count) (unmerged (st.node id)) all) :
    lib.Finds (.members (st.node id).location count all) := by
  rw [List.range_eq_range'] at h
  have hall := finds_takenAll ht count 0 _ (.nothing (ht.schema hid)) h
  rwa [Nat.zero_add] at hall

/-- A step of a run records nothing untrue. -/
def Learns (ctx : Context) (lib : Library) (d e : Draft) : Prop :=
  Store.Learns ctx.files lib d.store e.store

instance : IsPreorder Draft (Learns ctx lib) where
  refl _ := fun h => h
  trans _ _ _ h k := fun ht => k (h ht)

theorem inStore_learns {α : Type} {action : Store.Action α}
    (h : Follows (Store.Learns ctx.files lib) action d.store fun _ _ => True) :
    Follows (Learns ctx lib) (inStore action) d fun _ _ => True := by
  intro r e hx hr
  rw [run_inStore] at hx
  cases hx
  exact ⟨(h _ _ rfl hr).1, fun _ _ => trivial⟩

theorem child_learns (ht : d.store.Truthful ctx.files lib) (hid : d.store.Has id)
    {segments : List String} (hsegments : Subschema segments) :
    Follows (Learns ctx lib) (child ctx id segments) d fun found e =>
      Scans d e ∧ e.store.Found id segments found :=
  ((inStore_learns (Store.child_learns ht hid hsegments)).and
    (child_follows ctx segments ht.toSound hid fun _ hg => scans_schemas hg)).imp
      fun _ _ _ ⟨_, hscans, _, hfound⟩ => ⟨hscans, hfound⟩

section Merging

variable {f : Nat} (hmerge : ∀ id d, d.store.Truthful ctx.files lib → d.store.Has id →
  (d.store.node id).shape = .allOf →
    Follows (Learns ctx lib) (mergeAllOf ctx f id) d fun _ _ => True)

include hmerge

theorem addMember_learns (ht : d.store.Truthful ctx.files lib) (hid : d.store.Has id)
    (sofar : AllOf) (index : Nat) :
    Follows (Learns ctx lib) (addMember ctx (mergeAllOf ctx f) id sofar index) d
      fun _ _ => True := by
  unfold addMember
  refine (child_learns ht hid (.allOf index)).bind fun found e hde ⟨_, hfound⟩ => ?_
  have hte := hde ht
  refine Follows.after (a := e.store.node found.id) rfl ?_
  by_cases hparent : (found.byReference && !sofar.settled &&
      (e.store.node found.id).keywords.family.isSome) = true
  · simp only [hparent, if_true]
    exact Follows.pure trivial
  · rw [if_neg hparent]
    simp only [bind_ite]
    have hmember : Follows (Learns ctx lib)
        (if (e.store.node found.id).shape = .allOf then mergeAllOf ctx f found.id
          else pure found.id) e fun _ _ => True := by
      by_cases hshape : (e.store.node found.id).shape = .allOf
      · simp only [if_pos hshape]
        exact hmerge found.id e hte (hfound.has hte.toSound) hshape
      · simp only [if_neg hshape]
        exact Follows.pure trivial
    refine hmember.bind fun member t _ _ => Follows.after (a := t.store.node member) rfl ?_
    exact Follows.lift_bind fun _ _ => Follows.pure trivial

/-- One level of a merge: the members are found one after the other, and then their merge is. -/
theorem mergeAllOf_level (ht : d.store.Truthful ctx.files lib) (hid : d.store.Has id)
    (hshape : (d.store.node id).shape = .allOf) :
    Follows (Learns ctx lib) (mergeAllOf ctx (f + 1) id) d fun _ _ => True := by
  unfold mergeAllOf
  refine Follows.after (a := d.store.node id) rfl (Follows.after (a := d) rfl ?_)
  by_cases hbar : id ∈ d.merging
  · simp only [List.contains_iff_mem, hbar, if_true]
    exact Follows.throw_bind
  · simp only [List.contains_iff_mem, hbar, if_false]
    have hstack : ∀ (e : Draft) (stack : List NodeId),
        Learns ctx lib e { e with merging := stack } := fun _ _ h => h
    refine Follows.change_bind (hstack d _) ?_
    let count := ((d.store.node id).keywords.allOf.getD []).length
    have hfold := Follows.foldlM (R := Learns ctx lib) (f := addMember ctx (mergeAllOf ctx f) id)
      (I := fun sofar rest e => e.store.Truthful ctx.files lib ∧
        ∃ done, List.range count = done ++ rest ∧ TakingIn f d id done sofar e) (by
        rintro sofar index rest e ⟨hte, done, hdone, h⟩
        refine ((addMember_learns hmerge hte (h.grows.has hid) sofar index).and
          (h.next harmless_grows (mergeAllOf_grows f) hid index)).imp ?_
        rintro next t het ⟨-, -, hnext⟩
        exact ⟨het hte, done ++ [index], by simp [hdone], hnext⟩)
    have hstart : TakingIn f d id [] (unmerged (d.store.node id))
        { d with merging := id :: d.merging } := ⟨ht.toSound, refl _, rfl, rfl⟩
    refine (hfold _ _ { d with merging := id :: d.merging } ⟨ht, [], rfl, hstart⟩).bind ?_
    rintro all e - ⟨hte, done, hdone, h⟩
    rw [List.append_nil] at hdone
    subst hdone
    refine Follows.change_bind (hstack e _) (Follows.lift_bind fun own hown => ?_)
    have hnode := h.grows.node hid
    have hread := ht.read id hid
    have htaken := h.taken
    rw [← hnode] at htaken
    have hall := finds_members hte (h.grows.has hid) htaken
    rw [hnode] at hall
    exact inStore_learns (Store.synthesize_learns hte id (.merge (ht.schema hid) hread.keywords
      ((classify_allOf hread.shape).mp hshape) hall hown))

end Merging

theorem mergeAllOf_learns (ctx : Context) : ∀ (f : Nat) (id : NodeId) (d : Draft),
    d.store.Truthful ctx.files lib → d.store.Has id → (d.store.node id).shape = .allOf →
      Follows (Learns ctx lib) (mergeAllOf ctx f id) d fun _ _ => True := by
  intro f
  induction f with
  | zero => exact fun _ _ _ _ _ => Follows.throw
  | succ f ih => exact fun id d ht hid hshape => mergeAllOf_level ih ht hid hshape

end Drafting

end SchemaBeans
