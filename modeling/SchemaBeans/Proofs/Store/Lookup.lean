import SchemaBeans.Proofs.Store.Growth

/-! # Looking schemas up

Each operation of the store only makes it grow, and what it found is found again by a later call,
which then reads nothing and changes nothing. -/
namespace SchemaBeans.Store

variable {files : FileSystem} {st u : Store}

theorem document_spares (chain : List Location) (name : String) :
    Follows (Spares chain) (document files name) st
      (fun _ t => ∀ place, t.id? place = st.id? place) := by
  unfold document
  refine Follows.after (a := st) rfl ?_
  cases st.documents.lookup name with
  | some content => exact Follows.pure fun _ => rfl
  | none =>
    refine Follows.lift_bind fun content _ => ?_
    have hR : Spares chain st (st.register name content) :=
      ⟨grows_register st name content, fun _ _ h => h⟩
    exact Follows.change_bind hR (Follows.pure fun _ => rfl)

/-- A node is made where there is none, by a step that does not make it either. -/
theorem materialize_spares {step : Location → Action NodeId} {place : Location}
    {chain : List Location} (hstep : ∀ target st, st.Sound →
      Follows (Spares (place :: chain)) (step target) st (fun id t => t.id? target = some id))
    (parent : Option NodeId) (content : Json) (hs : st.Sound) (hfree : st.id? place = none)
    (hchain : place ∉ chain) :
    Follows (Spares chain) (materialize step place parent content) st
      (fun id t => t.id? place = some id) := by
  unfold materialize
  refine Follows.lift_bind fun keywords _ => ?_
  cases keywords.reference with
  | some reference =>
    refine Follows.lift_bind fun target _ => ?_
    have hwide : ∀ t, Spares (place :: chain) st t → Spares chain st t :=
      fun t h => ⟨h.toGrows, fun c hc => h.free c (List.mem_cons_of_mem _ hc)⟩
    have hfollow : Follows (Spares chain) (step target) st
        (fun id t => t.id? target = some id ∧ t.id? place = none ∧ t.Sound) := by
      intro r t hx hr
      obtain ⟨hR, hid⟩ := hstep target st hs r t hx hr
      exact ⟨hwide t hR, fun a ha => ⟨hid a ha, hR.free place (by simp) hfree, hR.sound hs⟩⟩
    refine Follows.bind hfollow fun id t _ ⟨hid, hnone, ht⟩ => ?_
    have hR : Spares chain t (t.bind place id) := by
      refine ⟨grows_bind hnone (ht.bound hid), fun c hc hn => ?_⟩
      rw [id?_bind, if_neg (fun he : c = place => hchain (he ▸ hc))]
      exact hn
    exact Follows.change_bind hR (Follows.pure (by rw [id?_bind, if_pos rfl]))
  | none =>
    simp only
    cases Shape.classify keywords with
    | error name => exact Follows.throw
    | ok shape =>
      intro r t hx _
      cases hx
      refine ⟨⟨grows_add _ hfree, fun c hc hn => ?_⟩, fun a ha => ?_⟩
      · exact (id?_add st _ c).trans ((if_neg fun he : c = place => hchain (he ▸ hc)).trans hn)
      · cases ha
        exact (id?_add st _ place).trans (if_pos rfl)

theorem follow_spares (fuel : Nat) : ∀ (chain : List Location) (place : Location) (st : Store),
    st.Sound → Follows (Spares chain) (follow files fuel chain place) st
      (fun id t => t.id? place = some id) := by
  induction fuel with
  | zero => exact fun chain place st _ => Follows.throw
  | succ fuel ih =>
    intro chain place st hs
    unfold follow
    refine Follows.after (a := st) rfl ?_
    cases hid : st.id? place with
    | some id => exact Follows.pure hid
    | none =>
      simp only
      by_cases hc : chain.contains place
      · simp only [hc, if_true]
        exact Follows.throw
      · simp only [hc]
        refine Follows.bind (document_spares chain place.document) fun content t hst hsame => ?_
        cases content.lookup? place.pointer with
        | none => exact Follows.throw
        | some part =>
          refine materialize_spares (fun target v hv => ih (place :: chain) target v hv) none part
            (hst.sound hs) (by rw [hsame, hid]) (by simpa using hc)

theorem make_grows (files : FileSystem) {place : Location} (parent : NodeId) (content : Json)
    (hs : st.Sound) (hfree : st.id? place = none) :
    Follows Grows
      (materialize (follow files (st.reach files) [place]) place (some parent) content) st
      (fun id t => t.id? place = some id) := by
  refine Follows.along (S := Spares []) ?_ fun _ h => h.toGrows
  exact materialize_spares (fun target v hv => follow_spares _ _ target v hv)
    (some parent) content hs
    hfree (by simp)

theorem resolve_grows (files : FileSystem) (place : Location) (hs : st.Sound) :
    Follows Grows (resolve files place) st (fun id t => t.id? place = some id) := by
  unfold resolve
  refine Follows.after (a := st) rfl ?_
  exact (follow_spares _ [] place st hs).along fun _ h => h.toGrows

theorem resolve_repeats {place : Location} {id : NodeId} (h : st.id? place = some id) :
    Repeats (resolve files place) st id := by
  obtain ⟨fuel, hfuel⟩ : ∃ fuel, st.reach files = fuel + 1 :=
    ⟨st.reach files - 1, by unfold reach; omega⟩
  unfold resolve
  refine Repeats.bind (a := st) rfl ?_
  rw [hfuel, follow]
  refine Repeats.bind (a := st) rfl ?_
  rw [h]
  exact Repeats.pure st id

/-- A child that the store knows. -/
structure Found (st : Store) (parent : NodeId) (segments : List String) (found : Child) : Prop where
  known : st.id? ((st.node parent).location.below segments) = some found.id
  byReference : found.byReference =
    decide ((st.node found.id).location ≠ (st.node parent).location.below segments)

theorem Found.has {parent : NodeId} {segments : List String} {found : Child}
    (h : st.Found parent segments found) (hs : st.Sound) : st.Has found.id := hs.bound h.known

theorem Found.grows {parent : NodeId} {segments : List String} {found : Child}
    (h : st.Found parent segments found) (hs : st.Sound) (hp : st.Has parent) (hg : Grows st u) :
    u.Found parent segments found := by
  constructor
  · rw [hg.node hp]
    exact hg.index h.known
  · rw [hg.node hp, hg.node (h.has hs)]
    exact h.byReference

theorem Found.unique {parent : NodeId} {segments : List String} {a b : Child}
    (ha : st.Found parent segments a) (hb : st.Found parent segments b) : a = b := by
  have hid : a.id = b.id := Option.some.inj (ha.known.symm.trans hb.known)
  have hr := ha.byReference
  rw [hid, ← hb.byReference] at hr
  cases a
  cases b
  simp_all

theorem child_grows {parent : NodeId} (segments : List String) (hs : st.Sound)
    (hp : st.Has parent) :
    Follows Grows (child files parent segments) st
      (fun found t => t.Found parent segments found) := by
  have hfound : ∀ id t, Grows st t → t.id? ((st.node parent).location.below segments) = some id →
      t.Found parent segments
        ⟨id, decide ((t.node id).location ≠ (st.node parent).location.below segments)⟩ := by
    intro id t hg hid
    constructor <;> rw [hg.node hp]
    exact hid
  unfold child
  refine Follows.after (a := st) rfl (Follows.after (a := st) rfl ?_)
  simp only
  cases hid : st.id? ((st.node parent).location.below segments) with
  | some id => exact Follows.pure (hfound id st (refl st) hid)
  | none =>
    simp only
    cases (st.node parent).content.descend? segments with
    | none => exact Follows.throw_bind
    | some content =>
      refine Follows.after (a := st) rfl ?_
      refine Follows.bind (make_grows files parent content hs hid) fun id t hg hid => ?_
      exact Follows.after (a := t) rfl (Follows.pure (hfound id t hg hid))

theorem child_repeats {parent : NodeId} {segments : List String} {found : Child}
    (h : st.Found parent segments found) : Repeats (child files parent segments) st found := by
  unfold child
  refine Repeats.bind (a := st) rfl (Repeats.bind (a := st) rfl ?_)
  simp only [h.known]
  refine Repeats.bind (a := found.id) rfl (Repeats.bind (a := st) rfl ?_)
  rw [← h.byReference]
  exact Repeats.pure st found

/-- The node that a reference gives is the one of the place it names. -/
theorem resolveReference_known (source : NodeId) (reference : String) (hs : st.Sound) :
    Follows Grows (resolveReference files source reference) st (fun id t => ∃ place,
      Location.ofReference (st.node source).location.document reference = .ok place ∧
        t.id? place = some id) := by
  unfold resolveReference
  refine Follows.after (a := st) rfl ?_
  refine Follows.lift_bind fun target htarget => ?_
  exact (resolve_grows files target hs).imp fun id t hg hid => ⟨target, htarget, hid⟩

theorem resolveReference_grows (source : NodeId) (reference : String) (hs : st.Sound) :
    Follows Grows (resolveReference files source reference) st (fun id t => t.Has id) := by
  refine (resolveReference_known source reference hs).imp fun id t hg hknown => ?_
  obtain ⟨place, -, hid⟩ := hknown
  exact (hg.sound hs).bound hid

theorem synthesize_grows (files : FileSystem) (place : Location) (parent : NodeId) (content : Json)
    (hs : st.Sound) :
    Follows Grows (synthesize files place parent content) st
      (fun id t => t.id? place = some id) := by
  unfold synthesize
  refine Follows.after (a := st) rfl ?_
  cases hid : st.id? place with
  | some id => exact Follows.pure hid
  | none =>
    exact Follows.after (a := st) rfl (make_grows files parent content hs hid)

theorem synthesize_repeats {place : Location} {id : NodeId} (parent : NodeId) (content : Json)
    (h : st.id? place = some id) : Repeats (synthesize files place parent content) st id := by
  unfold synthesize
  refine Repeats.bind (a := st) rfl ?_
  rw [h]
  exact Repeats.pure st id

end SchemaBeans.Store
