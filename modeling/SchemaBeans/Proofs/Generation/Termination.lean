import SchemaBeans.Proofs.Generation.MergingRuns
import SchemaBeans.Proofs.Store.Confinement

/-! # Merges come to an end

A merge goes down into a smaller schema, or to one at a location that is spelled by a reference. The
stack holds no schema twice, and there are only so many spelled locations, so it cannot go on for
ever. That a merge may add schemas to the store on its way does no harm: they are confined like the
others. -/
namespace SchemaBeans

open Json (Short)

namespace Json

variable {n : Nat} {v w : Json}

theorem short_object_nil : (object []).Short n := by
  intro s hs
  obtain ⟨m, hm, -⟩ := holds_object.mp hs
  cases hm

theorem Short.withoutFamily (h : v.Short n) : (Drafting.withoutFamily v).Short n := by
  intro s hs
  cases v with
  | object members =>
    obtain ⟨m, hm, hs⟩ := holds_object.mp hs
    exact h s (.member (mem_remove (mem_remove hm)) hs)
  | _ => exact h s hs

theorem Short.ownContent (h : v.Short n) : (Drafting.ownContent v).Short n := by
  intro s hs
  cases v with
  | object members =>
    obtain ⟨m, hm, hs⟩ := holds_object.mp hs
    exact h s (.member (mem_remove hm) hs)
  | _ => exact h s hs

theorem Short.extended (h : v.Short n) {parent : Option Location}
    (hparent : ∀ place, parent = some place →
      '#' ∉ place.document.toList ∧ place.pointer.length ≤ n) :
    (Drafting.extended parent v).Short n := by
  intro s hs
  cases v with
  | object members =>
    cases parent with
    | none => exact h s hs
    | some place =>
      obtain ⟨m, hm, hs⟩ := holds_object.mp hs
      rcases mem_put hm with hvalue | hm
      · obtain ⟨hwhole, hpointer⟩ := hparent place rfl
        rw [hvalue] at hs
        obtain ⟨m, hm, hs⟩ := holds_object.mp hs
        rw [List.mem_singleton.mp hm] at hs
        cases hs
        rw [Location.fragment_text hwhole, String.length_toList]
        exact hpointer
      · exact h s (.member hm hs)
  | _ => exact h s hs

end Json

namespace Drafting

variable {ctx : Context} {n : Nat} {d e : Draft} {id : NodeId} {sofar : AllOf}

theorem inStore_ends {α : Type} {action : Store.Action α} {Q : α → Store → Prop}
    (h : Ends action d.store Q) :
    Ends (inStore action) d fun a e => e = { d with store := e.store } ∧ Q a e.store := by
  intro r e hx
  rw [run_inStore] at hx
  cases hx
  obtain ⟨hends, hQ⟩ := h _ _ rfl
  exact ⟨hends, fun a ha => ⟨rfl, hQ a ha⟩⟩

theorem anchor_ends {v : Json} {base : String} : v.anchor base ≠ .error .endless := by
  intro h
  obtain ⟨reference, h⟩ := Json.anchor_error h
  cases h

theorem mergeAllOf_fueled (ctx : Context) (id : NodeId) : Fueled fun f => mergeAllOf ctx f id :=
  fun hle => mergeAllOf_approximates ctx hle id

theorem addMember_fueled (ctx : Context) (id : NodeId) (sofar : AllOf) (index : Nat) :
    Fueled fun f => addMember ctx (mergeAllOf ctx f) id sofar index :=
  fun hle => addMember_approximates (mergeAllOf_approximates ctx hle) id sofar index

/-- The state while the members of a schema are taken in, and what they amount to so far. -/
structure Gathering (n : Nat) (ctx : Context) (d : Draft) (id : NodeId) (e : Draft) : Prop where
  sound : e.store.Sound
  grows : d.store.Grows e.store
  merging : e.merging = id :: d.merging
  confined : e.store.Confined n ctx.files

/-- What the members amount to keeps its references short. -/
structure AllOf.Tame (n : Nat) (all : AllOf) : Prop where
  short : all.merged.Short n
  parent : ∀ place, all.parent = some place →
    '#' ∉ place.document.toList ∧ place.pointer.length ≤ n

theorem child_ends (h : Gathering n ctx d id e) (hid : d.store.Has id) (index : Nat) :
    Ends (child ctx id ["allOf", toString index]) e fun found t =>
      Gathering n ctx d id t ∧ t.store.Found id ["allOf", toString index] found := by
  have hide := h.grows.has hid
  have hends := ((Store.child_ends ctx.files e.store id _).and_follows
    (Store.child_confined h.confined h.sound hide index)).and_follows
      (Store.child_grows ["allOf", toString index] h.sound hide)
  refine (inStore_ends hends).imp fun found t ⟨ht, ⟨_, _, hconfined⟩, hgrows, hfound⟩ => ?_
  refine ⟨⟨hgrows.sound h.sound, IsTrans.trans _ _ _ h.grows hgrows, ?_, hconfined⟩, hfound⟩
  rw [ht]
  exact h.merging

theorem Gathering.merge {a : NodeId} {t : Draft} (ht : Gathering n ctx d id t)
    (ha : t.store.Has a) (h : Finishes (fun f => mergeAllOf ctx f a) t
      fun _ u => u.store.Confined n ctx.files) :
    Finishes (fun f => mergeAllOf ctx f a) t
      fun made u => Gathering n ctx d id u ∧ u.store.Has made := by
  have hgrows : ∀ f, Follows (fun d e : Draft => d.store.Grows e.store) (mergeAllOf ctx f a) t
      fun made u => u.merging = t.merging ∧ u.store.Has made := fun f =>
    (mergeAllOf_grows f a t ht.sound ha).imp fun made u hg ⟨hmerging, hm⟩ =>
      ⟨hmerging, hm.has_made (hg.sound ht.sound)⟩
  refine (h.and_follows hgrows).imp fun made u ⟨hu, hg, hmerging, hmade⟩ => ?_
  exact ⟨⟨hg.sound ht.sound, IsTrans.trans _ _ _ ht.grows hg, hmerging.trans ht.merging, hu⟩, hmade⟩

theorem addMember_finishes (h : Gathering n ctx d id e) (htame : sofar.Tame n)
    (hid : d.store.Has id) {index : Nat}
    (hmember : ∀ found t, Gathering n ctx d id t →
      t.store.Found id ["allOf", toString index] found →
        Finishes (fun f => mergeAllOf ctx f found.id) t
          fun _ u => u.store.Confined n ctx.files) :
    Finishes (fun f => addMember ctx (mergeAllOf ctx f) id sofar index) e
      fun next t => Gathering n ctx d id t ∧ next.Tame n := by
  unfold addMember
  refine Finishes.bind (Fueled.const _) (fun found => ?_) (.of_ends (child_ends h hid index))
    fun found t ⟨ht, hfound⟩ => ?_
  · intro k f hle
    refine (Approximates.refl _).bind fun target => Approximates.ite (Approximates.refl _) ?_
    refine Approximates.ite ?_ (Approximates.refl _)
    exact (mergeAllOf_approximates ctx hle found.id).bind fun _ => Approximates.refl _
  have hhas := hfound.has ht.sound
  refine Finishes.after (a := t.store.node found.id) rfl ?_
  by_cases hparent : (found.byReference && !sofar.settled &&
      (t.store.node found.id).keywords.family.isSome) = true
  · simp only [hparent, if_true]
    refine .of_ends (Ends.pure ⟨ht, htame.short, ?_⟩)
    rintro place ⟨⟩
    refine ⟨(ht.confined.schemas _ hhas).whole, ?_⟩
    -- A reference led there, so the location is spelled.
    refine (ht.confined.aliases _ _ hfound.known).resolve_left ?_
    have hby : found.byReference = true := by
      simp only [Bool.and_eq_true] at hparent
      exact hparent.1.1
    rw [hfound.byReference] at hby
    exact of_decide_eq_true hby
  · rw [Bool.not_eq_true] at hparent
    simp only [hparent, bind_ite]
    have hmade : Finishes (fun f => if (t.store.node found.id).shape = .allOf
        then mergeAllOf ctx f found.id else pure found.id) t
          fun member u => Gathering n ctx d id u ∧ u.store.Has member := by
      by_cases hshape : (t.store.node found.id).shape = .allOf
      · simp only [if_pos hshape]
        exact ht.merge hhas (hmember found t ht hfound)
      · simp only [if_neg hshape]
        exact .of_ends (Ends.pure ⟨ht, hhas⟩)
    refine Finishes.bind ?_ (fun _ => Fueled.const _) hmade fun member u ⟨hu, hmember⟩ => ?_
    · intro k f hle
      exact Approximates.ite (mergeAllOf_approximates ctx hle _) (Approximates.refl _)
    have hstands := hu.confined.schemas _ hmember
    refine .of_ends (Ends.after (a := u.store.node member) rfl ?_)
    refine Ends.bind (P := fun content v => v = u ∧ content.Short n)
      (Ends.lift anchor_ends fun _ hw => ⟨rfl, hstands.short.anchor hstands.whole hw⟩) ?_
    rintro content _ ⟨rfl, hshort⟩
    refine Ends.pure ⟨hu, htame.short.merge ?_, htame.parent⟩
    split
    · exact hshort.withoutFamily
    · exact hshort

theorem synthesize_ends (h : Gathering n ctx d id e) (hid : d.store.Has id) {content : Json}
    (hshort : content.Short n) :
    Ends (inStore (Store.synthesize ctx.files ((d.store.node id).location.below ["allOf"]) id
      content)) { e with merging := e.merging.tail } fun _ t => t.store.Confined n ctx.files := by
  have hide := h.grows.has hid
  rw [← h.grows.node hid]
  have hends := (Store.synthesize_ends ctx.files e.store _ id content).and_follows
    (Store.synthesize_confined h.confined h.sound hide hshort)
  exact (inStore_ends (d := { e with merging := e.merging.tail }) hends).imp
    fun _ _ ⟨_, _, _, ht⟩ => ht

theorem mergeAllOf_finishes (hs : d.store.Sound) (h : d.store.Confined n ctx.files)
    (hid : d.store.Has id) (hmember : id ∉ d.merging → ∀ (index : Nat) found t,
      Gathering n ctx d id t →
      t.store.Found id ["allOf", toString index] found →
        Finishes (fun f => mergeAllOf ctx f found.id) t
          fun _ u => u.store.Confined n ctx.files) :
    Finishes (fun f => mergeAllOf ctx f id) d fun _ e => e.store.Confined n ctx.files := by
  suffices hlevel : Finishes (fun f => mergeAllOf ctx (f + 1) id) d
      fun _ e => e.store.Confined n ctx.files by
    obtain ⟨f, hf⟩ := hlevel
    exact ⟨f + 1, hf⟩
  simp only [mergeAllOf]
  refine Finishes.after (a := d.store.node id) rfl (Finishes.after (a := d) rfl ?_)
  by_cases hbar : id ∈ d.merging
  · simp only [List.contains_iff_mem, hbar, if_true]
    exact ⟨0, Ends.throw_bind (by simp)⟩
  · simp only [List.contains_iff_mem, hbar, if_false]
    refine Finishes.change_bind ?_
    have hmembers := Finishes.foldlM (fun sofar index => addMember_fueled ctx id sofar index)
      (I := fun sofar _ e => Gathering n ctx d id e ∧ sofar.Tame n)
      (fun sofar index _ e ⟨he, htame⟩ =>
        addMember_finishes he htame hid fun found t => hmember hbar index found t)
      (List.range ((d.store.node id).keywords.allOf.getD []).length)
      ⟨.object [], ((ownContent (d.store.node id).content).member? "extends").isSome, none⟩
      { d with merging := id :: d.merging }
      ⟨⟨hs, refl _, rfl, h⟩, Json.short_object_nil, fun _ hnone => by cases hnone⟩
    refine Finishes.bind ?_ (fun _ => Fueled.const _) hmembers fun all e ⟨he, htame⟩ => .of_ends ?_
    · exact fun hle => Approximates.foldlM
        (addMember_approximates (mergeAllOf_approximates ctx hle) id) _ _
    have hstands := h.schemas _ hid
    refine Ends.bind (P := fun _ t => t = { e with merging := e.merging.tail })
      (Ends.change rfl) ?_
    rintro _ _ rfl
    refine Ends.bind (P := fun own t => t = { e with merging := e.merging.tail } ∧ own.Short n)
      (Ends.lift anchor_ends fun _ hw =>
        ⟨rfl, hstands.short.ownContent.anchor hstands.whole hw⟩) ?_
    rintro own _ ⟨rfl, hown⟩
    exact synthesize_ends he hid ((htame.short.extended htame.parent).merge hown)

/-- The upper part of the stack, which a merge has put there itself. -/
structure Opened (d : Draft) (opened : List NodeId) : Prop where
  top : opened <+: d.merging
  known : ∀ id ∈ opened, d.store.Has id

def left (n : Nat) (st : Store) (opened : List NodeId) : Nat :=
  Location.unseen n (opened.map fun id => (st.node id).location)

/-- How far a merge can go on inside a schema. A schema at a spelled location counts for nothing, as
opening it takes that location away. -/
def weight (n : Nat) (st : Store) (id : NodeId) : Nat :=
  if (st.node id).location.pointer.length ≤ n then 0 else (st.node id).content.size + 1

variable {opened : List NodeId} {t : Draft}

theorem Opened.push (h : Opened d opened) (hid : d.store.Has id) (ht : Gathering n ctx d id t) :
    Opened t (id :: opened) where
  top := by
    rw [ht.merging]
    exact (List.prefix_cons_inj id).mpr h.top
  known := List.forall_mem_cons.mpr
    ⟨ht.grows.has hid, fun other hother => ht.grows.has (h.known other hother)⟩

theorem Opened.left_push (h : Opened d opened) (hid : d.store.Has id)
    (ht : Gathering n ctx d id t) : left n t.store (id :: opened) =
      Location.unseen n ((d.store.node id).location ::
        opened.map fun id => (d.store.node id).location) := by
  unfold left
  rw [List.map_cons, ht.grows.node hid,
    List.map_congr_left fun other hother => by rw [ht.grows.node (h.known other hother)]]

theorem Opened.fresh (h : Opened d opened) (hs : d.store.Sound) (hid : d.store.Has id)
    (hbar : id ∉ d.merging) :
    (d.store.node id).location ∉ opened.map fun id => (d.store.node id).location := by
  intro hmem
  obtain ⟨other, hother, hsame⟩ := List.mem_map.mp hmem
  have hown := hs.own (h.known other hother)
  rw [hsame, hs.own hid] at hown
  exact hbar (h.top.subset (Option.some.inj hown ▸ hother))

theorem Opened.descends (h : Opened d opened) (hs : d.store.Sound)
    (hc : d.store.Confined n ctx.files) (hid : d.store.Has id) (hbar : id ∉ d.merging)
    (ht : Gathering n ctx d id t) {index : Nat} {found : Store.Child}
    (hfound : t.store.Found id ["allOf", toString index] found) :
    left n t.store (id :: opened) < left n d.store opened ∨
      left n t.store (id :: opened) ≤ left n d.store opened ∧
        weight n t.store found.id < weight n d.store id := by
  rw [h.left_push hid ht]
  by_cases hspelled : (d.store.node id).location.pointer.length ≤ n
  · left
    exact Location.Spelled.unseen_lt ⟨(hc.schemas id hid).known, hspelled⟩ (h.fresh hs hid hbar)
  · right
    refine ⟨Location.unseen_cons_le _ _ _, ?_⟩
    unfold weight
    rw [if_neg hspelled]
    rcases ht.confined.found ht.sound (ht.grows.has hid) hfound with hspelled | hsize
    · rw [if_pos hspelled]
      exact Nat.succ_pos _
    · rw [ht.grows.node hid] at hsize
      split <;> omega

theorem mergeAllOf_descends {d : Draft} {id : NodeId} {opened : List NodeId} (hs : d.store.Sound)
    (h : d.store.Confined n ctx.files) (hid : d.store.Has id) (hopened : Opened d opened) :
    Finishes (fun f => mergeAllOf ctx f id) d fun _ e => e.store.Confined n ctx.files :=
  mergeAllOf_finishes hs h hid fun _ _ _ _ ht hfound =>
    mergeAllOf_descends ht.sound ht.confined (hfound.has ht.sound) (hopened.push hid ht)
termination_by (left n d.store opened, weight n d.store id)
decreasing_by
  rcases hopened.descends hs h hid ‹_› ht hfound with hlt | ⟨hle, hlt⟩
  · exact .left _ _ hlt
  · exact .right' _ hle hlt

theorem mergeAllOf_ends (ctx : Context) (hs : d.store.Sound) (hid : d.store.Has id)
    (hwhole : ∀ id, d.store.Has id → '#' ∉ (d.store.node id).location.document.toList) :
    ∃ enough, ∀ f, enough ≤ f → ((mergeAllOf ctx f id).run d).1 ≠ .error .endless := by
  obtain ⟨n, h⟩ := Store.exists_confined ctx.files hs hwhole
  have hopened : Opened d [] := ⟨⟨d.merging, rfl⟩, fun _ h => by cases h⟩
  obtain ⟨enough, hends⟩ := mergeAllOf_descends hs h hid hopened
  exact ⟨enough, fun f hle => ((mergeAllOf_fueled ctx id hle).ends hends _ _ rfl).1⟩

end Drafting

end SchemaBeans
