import SchemaBeans.Proofs.Store.Invariant
import SchemaBeans.Proofs.Store.Library

/-! # References are followed to their end

A store that was only asked for schemas is faithful to its documents: every node has what its
location contains, and every other entry of the index is a reference to the node. Looking a
location up keeps the store faithful and answers with the end of the chain, or with the reason
why it has none. -/
namespace SchemaBeans.Store

open Relation

variable {files : FileSystem} {lib : Library} {st u : Store} {place : Location}

structure Faithful (files : FileSystem) (lib : Library) (st : Store) : Prop extends Sound st where
  library : st.library files = lib
  contents : ∀ id, st.Has id → lib.Contains (st.node id).location (st.node id).content
  read : ∀ id, st.Has id → (st.node id).Read
  leads : ∀ place id, st.id? place = some id →
    ReflTransGen lib.Refers place (st.node id).location

def Stays (files : FileSystem) (lib : Library) (st u : Store) : Prop :=
  st.Faithful files lib → u.Faithful files lib

instance : IsPreorder Store (Stays files lib) where
  refl _ := id
  trans _ _ _ h k := k ∘ h

theorem fetch_unresolved {name : String} {fault : Fault} (h : fetch files name = .error fault) :
    ∃ subject reason, fault = .unresolved subject reason := by
  unfold fetch at h
  dsimp only at h
  split at h
  · split at h
    · cases h
      exact ⟨_, _, rfl⟩
    · split at h <;> cases h
      exact ⟨_, _, rfl⟩
  · cases h
    exact ⟨_, _, rfl⟩

theorem library_plain (files : FileSystem) (st : Store) : (st.library files).Plain := by
  intro name fault h
  unfold library at h
  split at h
  · cases h
  · exact fetch_unresolved h

theorem library_register {name : String} {content : Json} (hnew : st.documents.lookup name = none)
    (hcontent : fetch files name = .ok content) :
    (st.register name content).library files = st.library files := by
  funext other
  unfold library register
  rw [List.lookup_cons]
  by_cases h : other = name
  · simp [h, hnew, hcontent]
  · simp [beq_eq_false_iff_ne.mpr h]

theorem Faithful.of_same (h : st.Faithful files lib) (hsame : SameNodes st u)
    (hlib : u.library files = st.library files) : u.Faithful files lib := by
  obtain ⟨documents, nodes, index⟩ := u
  obtain ⟨rfl, rfl⟩ := hsame
  exact ⟨⟨h.bound, h.own⟩, hlib.trans h.library, h.contents, h.read, h.leads⟩

/-- More documents leave the store faithful, if all that it had stay. -/
theorem Faithful.register (h : st.Faithful files lib) {name : String} {content : Json}
    (hsub : lib.Sub ((st.register name content).library files)) :
    (st.register name content).Faithful files ((st.register name content).library files) where
  bound := h.bound
  own := h.own
  library := rfl
  contents id hid := (h.contents id hid).mono hsub
  read := h.read
  leads place id hid := ReflTransGen.mono (fun _ _ hrefers => hrefers.mono hsub) _ _
    (h.leads place id hid)

/-- A document is what the library says, and asking for it changes nothing that can be seen. -/
theorem document_run (hlibrary : st.library files = lib) (name : String) :
    ∃ t, (document files name).run st = (lib name, t) ∧ SameNodes st t ∧
      t.library files = lib := by
  have hname : lib name = st.library files name := by rw [hlibrary]
  cases hfound : st.documents.lookup name with
  | some content =>
    refine ⟨st, ?_, refl st, hlibrary⟩
    have hrun : Repeats (document files name) st content := by
      unfold document
      refine Repeats.bind (a := st) rfl ?_
      rw [hfound]
      exact Repeats.pure st content
    rw [hrun, hname, library, hfound]
  | none =>
    have hfetch : lib name = fetch files name := by rw [hname, library, hfound]
    have hrun : (document files name).run st = (do
        let content ← (fetch files name : Except Fault Json)
        modify (·.register name content)
        pure content : Action Json).run st := by
      unfold document
      refine (run_bind_ok (a := st) rfl).trans ?_
      rw [hfound]
    rw [hrun, hfetch]
    cases hcontent : fetch files name with
    | error fault => exact ⟨st, rfl, refl st, hlibrary⟩
    | ok content =>
      exact ⟨st.register name content, rfl, ⟨rfl, rfl⟩,
        (library_register hfound hcontent).trans hlibrary⟩

theorem document_answers (h : st.Faithful files lib) (name : String) :
    ∃ t, (document files name).run st = (lib name, t) ∧ SameNodes st t ∧
      t.Faithful files lib := by
  obtain ⟨t, hrun, hsame, hlibrary⟩ := document_run h.library name
  exact ⟨t, hrun, hsame, h.of_same hsame (hlibrary.trans h.library.symm)⟩

theorem document_stays (h : st.Faithful files lib) (name : String) :
    Follows (Stays files lib) (document files name) st fun content t =>
      lib name = .ok content ∧ SameNodes st t ∧ t.Faithful files lib := by
  obtain ⟨t, hrun, hsame, ht⟩ := document_answers h name
  intro r u hx _
  rw [hrun] at hx
  cases hx
  exact ⟨fun _ => ht, fun content hcontent => ⟨hcontent, hsame, ht⟩⟩

theorem document_faults (h : st.Faithful files lib) (name : String) :
    Faults (document files name) st fun fault _ => lib name = .error fault := by
  obtain ⟨t, hrun, -, -⟩ := document_answers h name
  intro fault u hx
  rw [hrun] at hx
  exact (Prod.mk.inj hx).1

theorem Faithful.bind (h : st.Faithful files lib) {target : Location} {id : NodeId}
    (hfree : st.id? place = none) (hid : st.id? target = some id)
    (hrefers : lib.Refers place target) : (st.bind place id).Faithful files lib where
  toSound := (grows_bind hfree (h.bound hid)).sound h.toSound
  library := h.library
  contents := h.contents
  read := h.read
  leads other i hi := by
    rw [id?_bind] at hi
    split at hi
    · rename_i hother
      cases hi
      rw [hother]
      exact .head hrefers (h.leads _ _ hid)
    · exact h.leads _ _ hi

theorem Faithful.add (h : st.Faithful files lib) {node : SchemaNode}
    (hfree : st.id? node.location = none) (hcontent : lib.Contains node.location node.content)
    (hread : node.Read) : (st.add node).2.Faithful files lib where
  toSound := (grows_add node hfree).sound h.toSound
  library := h.library
  contents id hid := by
    rcases has_add.mp hid with hold | rfl
    · rw [node_add_of_has node hold]
      exact h.contents id hold
    · rw [node_add_self]
      exact hcontent
  read id hid := by
    rcases has_add.mp hid with hold | rfl
    · rw [node_add_of_has node hold]
      exact h.read id hold
    · rw [node_add_self]
      exact hread
  leads other i hi := by
    rw [id?_add] at hi
    split at hi
    · rename_i hother
      cases hi
      rw [node_add_self, hother]
    · rw [node_add_of_has node (h.bound hi)]
      exact h.leads _ _ hi

theorem materialize_stays {step : Location → Action NodeId} {content : Json}
    (hfree : st.id? place = none) (hcontent : lib.Contains place content)
    (hstep : ∀ target, lib.Refers place target → Follows (Stays files lib) (step target) st
      fun id t => t.id? target = some id ∧ t.id? place = none)
    (h : st.Faithful files lib) (parent : Option NodeId) :
    Follows (Stays files lib) (materialize step place parent content) st fun _ _ => True := by
  unfold materialize
  refine Follows.lift_bind fun keywords hkeywords => ?_
  cases href : keywords.reference with
  | some reference =>
    refine Follows.lift_bind fun target htarget => ?_
    have hrefers := Library.refers_iff.mpr (by
      rw [Library.look_of_keywords hcontent hkeywords, href]
      simp only [htarget]
      rfl)
    refine (hstep target hrefers).bind fun id t _ ⟨hid, hfree⟩ => ?_
    exact Follows.change_bind (fun ht => ht.bind hfree hid hrefers) (Follows.pure trivial)
  | none =>
    simp only
    cases hshape : Shape.classify keywords with
    | error name => exact Follows.throw
    | ok shape =>
      intro r t hx _
      cases hx
      exact ⟨fun _ => h.add hfree hcontent ⟨hkeywords, href, hshape⟩, fun _ _ => trivial⟩

theorem follow_stays_free {fuel : Nat} {chain : List Location} {target : Location}
    (h : Follows (Stays files lib) (follow files fuel (place :: chain) target) st fun _ _ => True)
    (hs : st.Sound) (hfree : st.id? place = none) :
    Follows (Stays files lib) (follow files fuel (place :: chain) target) st
      fun id t => t.id? target = some id ∧ t.id? place = none :=
  (h.and (follow_spares fuel (place :: chain) target st hs)).imp
    fun _ _ _ ⟨_, hspares, hid⟩ => ⟨hid, hspares.free place (by simp) hfree⟩

theorem follow_stays (fuel : Nat) : ∀ (chain : List Location) (place : Location) (st : Store),
    st.Faithful files lib →
      Follows (Stays files lib) (follow files fuel chain place) st fun _ _ => True := by
  induction fuel with
  | zero => exact fun _ _ _ _ => Follows.throw
  | succ fuel ih =>
    intro chain place st h
    unfold follow
    refine Follows.after (a := st) rfl ?_
    cases hid : st.id? place with
    | some id => exact Follows.pure trivial
    | none =>
      simp only
      split
      · exact Follows.throw
      · refine (document_stays h place.document).bind fun content t _ ⟨hdocument, hsame, ht⟩ => ?_
        cases hpart : content.lookup? place.pointer with
        | none => exact Follows.throw
        | some part =>
          have hfree : t.id? place = none := by
            unfold id? at hid ⊢
            rw [hsame.index, hid]
          refine materialize_stays hfree ⟨hdocument, hpart⟩ (fun target _ => ?_) ht none
          exact follow_stays_free (ih _ target t ht) ht.toSound hfree

theorem resolve_stays (h : st.Faithful files lib) (place : Location) :
    Follows (Stays files lib) (resolve files place) st fun _ _ => True :=
  Follows.after (a := st) rfl (follow_stays _ [] place st h)

theorem materialize_faults {step : Location → Action NodeId} {content : Json}
    (hcontent : lib.Contains place content)
    (hstep : ∀ target, lib.Refers place target →
      Faults (step target) st fun fault _ => fault = .endless ∨ lib.Fails target fault)
    (parent : Option NodeId) :
    Faults (materialize step place parent content) st
      fun fault _ => fault = .endless ∨ lib.Fails place fault := by
  have hbreaks : ∀ {fault}, lib.look place = .error fault → lib.Fails place fault :=
    fun h => .breaks .refl h
  unfold materialize
  refine Faults.lift_bind (fun fault h => ?_) fun keywords hkeywords => ?_
  · refine .inr (hbreaks ?_)
    rw [Library.look_of_contains hcontent, h]
    rfl
  · have hlook := Library.look_of_keywords hcontent hkeywords
    cases href : keywords.reference with
    | some reference =>
      simp only [href] at hlook
      refine Faults.lift_bind (fun fault h => ?_) fun target htarget => ?_
      · rw [h] at hlook
        exact .inr (hbreaks hlook)
      · rw [htarget] at hlook
        have hrefers := Library.refers_iff.mpr hlook
        refine ((hstep target hrefers).imp fun _ _ h => h.imp_right (.of_refers hrefers)).bind ?_
        exact fun id t _ => (Faults.change _).bind fun _ _ _ => Faults.pure _
    | none =>
      simp only [href] at hlook ⊢
      cases hshape : Shape.classify keywords with
      | error name =>
        rw [hshape] at hlook
        exact Faults.throw (.inr (hbreaks hlook))
      | ok shape =>
        intro fault t h
        cases h

/-- The places passed lead to the place looked up, so a place that is passed again is on a
circle. -/
theorem follow_faults (fuel : Nat) : ∀ (chain : List Location) (place : Location) (st : Store),
    st.Faithful files lib → (∀ passed ∈ chain, TransGen lib.Refers passed place) →
      Faults (follow files fuel chain place) st
        fun fault _ => fault = .endless ∨ lib.Fails place fault := by
  induction fuel with
  | zero => exact fun _ _ _ _ _ => Faults.throw (.inl rfl)
  | succ fuel ih =>
    intro chain place st h hchain
    unfold follow
    refine Faults.after (a := st) rfl ?_
    cases hid : st.id? place with
    | some id => exact Faults.pure _
    | none =>
      simp only
      split
      · rename_i hpassed
        exact Faults.throw (.inr (.circles .refl (hchain place (by simpa using hpassed))))
      · refine ((document_faults h place.document).imp fun fault t hfault => ?_).bind
          fun content t hrun => ?_
        · refine .inr (.breaks .refl ?_)
          rw [Library.look, hfault]
          rfl
        · obtain ⟨-, hdocument, hsame, ht⟩ := (document_stays h place.document).success hrun
          cases hpart : content.lookup? place.pointer with
          | none =>
            exact Faults.throw (.inr (.breaks .refl (Library.look_of_missing hdocument hpart)))
          | some part =>
            refine materialize_faults ⟨hdocument, hpart⟩ (fun target hrefers => ?_) none
            refine ih (place :: chain) target t ht fun passed hpassed => ?_
            rcases List.mem_cons.mp hpassed with rfl | hpassed
            · exact .single hrefers
            · exact (hchain passed hpassed).tail hrefers

theorem resolve_answers (h : st.Faithful files lib) (place : Location) :
    ∃ r t, (resolve files place).run st = (r, t) ∧ t.Faithful files lib ∧
      ((∃ id, r = .ok id ∧ t.id? place = some id) ∨
        ∃ fault, r = .error fault ∧ lib.Fails place fault) := by
  rcases hrun : (resolve files place).run st with ⟨r, t⟩
  have hends := ((resolve_ends files st place) _ _ hrun).1
  have hfaults : Faults (resolve files place) st
      fun fault _ => fault = .endless ∨ lib.Fails place fault :=
    Faults.after (a := st) rfl (follow_faults _ [] place st h (by simp))
  refine ⟨r, t, rfl, (resolve_stays h place _ _ hrun hends).1 h, ?_⟩
  cases r with
  | ok id => exact .inl ⟨id, rfl, ((resolve_grows files place h.toSound).success hrun).2⟩
  | error fault =>
    refine .inr ⟨fault, rfl, (hfaults _ _ hrun).resolve_left fun he => hends ?_⟩
    rw [he]

theorem Faithful.hasSchema (h : st.Faithful files lib) {id : NodeId} (hid : st.Has id) :
    lib.HasSchema (st.node id).location :=
  Library.hasSchema_iff.mpr (by
    have hread := h.read id hid
    rw [Library.look_of_keywords (h.contents id hid) hread.keywords, hread.plain]
    simp only [hread.shape])

theorem faithful_of_empty (files : FileSystem) (documents : List (String × Json)) :
    Faithful files (Store.library files { documents }) { documents } where
  toSound := sound_of_empty rfl rfl
  library := rfl
  contents id hid := by simp [Has] at hid
  read id hid := by simp [Has] at hid
  leads place id hid := by simp [id?] at hid

/-- In a store that knows documents only, looking a location up comes to an end. It finds a node
exactly if the chain of references comes to a schema, and that is where the node stands. It cannot
resolve the location exactly if the chain passes a location twice or comes to one that nothing can
be read from. -/
theorem resolve_exact (files : FileSystem) (documents : List (String × Json)) (place : Location) :
    let lib := Store.library files { documents }
    ∃ r t, (resolve files place).run { documents } = (r, t) ∧ r ≠ .error .endless ∧
      ((∃ id, r = .ok id) ↔ ∃ last, ReflTransGen lib.Refers place last ∧ ¬ lib.Circles place ∧
        lib.HasSchema last) ∧
      (∀ id last, r = .ok id → ReflTransGen lib.Refers place last → lib.HasSchema last →
        (t.node id).location = last) ∧
      ((∃ subject reason, r = .error (.unresolved subject reason)) ↔ lib.Circles place ∨
        ∃ last, ReflTransGen lib.Refers place last ∧ lib.Unresolvable last) := by
  intro lib
  obtain ⟨r, t, hrun, ht, hr⟩ := resolve_answers (faithful_of_empty files documents) place
  have hplain : lib.Plain := library_plain files _
  refine ⟨r, t, hrun, ((resolve_ends files _ place) _ _ hrun).1, ?_⟩
  rcases hr with ⟨id, rfl, hid⟩ | ⟨fault, rfl, hfails⟩
  · have hleads := ht.leads place id hid
    have hschema := ht.hasSchema (ht.bound hid)
    have hnot := hschema.final.not_circles hleads
    refine ⟨⟨fun _ => ⟨_, hleads, hnot, hschema⟩, fun _ => ⟨id, rfl⟩⟩, ?_, ?_⟩
    · rintro other last hother hlast hlastSchema
      cases hother
      exact hschema.final.unique hlastSchema.final hleads hlast
    · constructor
      · rintro ⟨_, _, h⟩
        cases h
      · rintro (hcircles | ⟨last, hlast, hunresolvable⟩)
        · exact absurd hcircles hnot
        · obtain ⟨subject, reason, hlook⟩ := (Library.unresolvable_iff hplain).mp hunresolvable
          exact absurd hschema ((Library.Fails.breaks hlast hlook).not_schema hleads)
  · refine ⟨Iff.intro ?_ ?_, ?_, ?_⟩
    · rintro ⟨_, h⟩
      cases h
    · rintro ⟨last, hlast, -, hschema⟩
      exact absurd hschema (hfails.not_schema hlast)
    · intro _ _ h
      cases h
    · cases hfails with
      | circles hagain hback => exact ⟨fun _ => .inl ⟨_, hagain, hback⟩, fun _ => ⟨_, _, rfl⟩⟩
      | breaks hlast hlook =>
        constructor
        · rintro ⟨subject, reason, h⟩
          cases h
          exact .inr ⟨_, hlast, (Library.unresolvable_iff hplain).mpr ⟨_, _, hlook⟩⟩
        · rintro (hcircles | ⟨other, hother, hunresolvable⟩)
          · exact absurd hcircles ((Library.final_of_error hlook).not_circles hlast)
          · obtain ⟨subject, reason, hother'⟩ := (Library.unresolvable_iff hplain).mp hunresolvable
            obtain rfl := (Library.final_of_error hlook).unique
              (Library.final_of_error hother') hlast hother
            rw [hlook] at hother'
            cases hother'
            exact ⟨_, _, rfl⟩

end SchemaBeans.Store
