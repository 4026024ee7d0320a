import SchemaBeans.Proofs.Store.Nodes

/-! # What every store keeps

Every node is the node of its own location and says what its content says, and what a location
leads to never changes. A call that fails leaves nodes and index as they are, because a node or
an entry is only made when everything it depends on is there. -/
namespace SchemaBeans.Store

open Relation

variable {files : FileSystem} {st : Store}

/-- Nodes and index of the second store are those of the first one. -/
structure SameNodes (st u : Store) : Prop where
  nodes : u.nodes = st.nodes
  index : u.index = st.index

instance : IsPreorder Store SameNodes where
  refl _ := ⟨rfl, rfl⟩
  trans _ _ _ h k := ⟨k.nodes.trans h.nodes, k.index.trans h.index⟩

theorem document_same (name : String) (st : Store) :
    Follows SameNodes (document files name) st fun _ _ => True := by
  unfold document
  refine Follows.after (a := st) rfl ?_
  cases st.documents.lookup name with
  | some content => exact Follows.pure trivial
  | none =>
    refine Follows.lift_bind fun content _ => ?_
    exact Follows.change_bind ⟨rfl, rfl⟩ (Follows.pure trivial)

theorem document_fails (name : String) (st : Store) :
    Faults (document files name) st fun _ t => SameNodes st t := by
  unfold document
  refine Faults.after (a := st) rfl ?_
  cases st.documents.lookup name with
  | some content => exact Faults.pure _
  | none =>
    refine Faults.lift_bind (fun _ _ => refl st) fun content _ => ?_
    exact (Faults.change _).bind fun _ _ _ => Faults.pure _

/-- Nothing can fail once a node or an entry is made. -/
theorem materialize_fails {step : Location → Action NodeId} {place : Location} {st : Store}
    (hstep : ∀ target, Faults (step target) st fun _ t => SameNodes st t)
    (parent : Option NodeId) (content : Json) :
    Faults (materialize step place parent content) st fun _ t => SameNodes st t := by
  unfold materialize
  refine Faults.lift_bind (fun _ _ => refl st) fun keywords _ => ?_
  cases keywords.reference with
  | some reference =>
    refine Faults.lift_bind (fun _ _ => refl st) fun target _ => ?_
    exact (hstep target).bind fun id t _ => (Faults.change _).bind fun _ _ _ => Faults.pure _
  | none =>
    simp only
    cases Shape.classify keywords with
    | error name => exact Faults.throw (refl st)
    | ok shape =>
      intro fault t h
      cases h

theorem follow_fails (fuel : Nat) : ∀ (chain : List Location) (place : Location) (st : Store),
    Faults (follow files fuel chain place) st fun _ t => SameNodes st t := by
  induction fuel with
  | zero => exact fun _ _ st => Faults.throw (refl st)
  | succ fuel ih =>
    intro chain place st
    unfold follow
    refine Faults.after (a := st) rfl ?_
    cases st.id? place with
    | some id => exact Faults.pure _
    | none =>
      simp only
      split
      · exact Faults.throw (refl st)
      · refine (document_fails place.document st).bind fun content t hrun => ?_
        have hsame := ((document_same place.document st).success hrun).1
        cases content.lookup? place.pointer with
        | none => exact Faults.throw hsame
        | some part =>
          refine (materialize_fails (fun target => ?_) none part).imp
            fun _ _ h => IsTrans.trans _ _ _ hsame h
          exact ih (place :: chain) target t

theorem resolve_fails (place : Location) (st : Store) :
    Faults (resolve files place) st fun _ t => SameNodes st t :=
  Faults.after (a := st) rfl (follow_fails _ [] place st)

theorem child_fails (parent : NodeId) (segments : List String) (st : Store) :
    Faults (child files parent segments) st fun _ t => SameNodes st t := by
  unfold child
  refine Faults.after (a := st) rfl (Faults.after (a := st) rfl ?_)
  simp only
  cases st.id? ((st.node parent).location.below segments) with
  | some id => exact Faults.pure _
  | none =>
    simp only
    cases (st.node parent).content.descend? segments with
    | none => exact (Faults.throw (refl st)).bind fun _ _ h => by cases h
    | some content =>
      refine Faults.after (a := st) rfl ?_
      refine (materialize_fails (fun target => follow_fails _ _ target st) _ content).bind ?_
      exact fun id t _ => Faults.after (a := t) rfl (Faults.pure _)

theorem synthesize_fails (place : Location) (parent : NodeId) (content : Json) (st : Store) :
    Faults (synthesize files place parent content) st fun _ t => SameNodes st t := by
  unfold synthesize
  refine Faults.after (a := st) rfl ?_
  cases st.id? place with
  | some id => exact Faults.pure _
  | none =>
    refine Faults.after (a := st) rfl ?_
    exact materialize_fails (fun target => follow_fails _ _ target st) _ content

theorem Call.fails (files : FileSystem) (st : Store) (call : Call) :
    Faults (call.action files) st fun _ t => SameNodes st t := by
  have hdiscard : ∀ {α : Type} {x : Action α}, (Faults x st fun _ t => SameNodes st t) →
      Faults (do let _ ← x) st fun _ t => SameNodes st t :=
    fun h => h.bind fun _ _ _ => Faults.pure _
  cases call with
  | register document content => exact Faults.change _
  | clear =>
    intro fault t h
    cases h
  | resolve place => exact hdiscard (resolve_fails place st)
  | load path =>
    exact hdiscard (Faults.lift_bind (fun _ _ => refl st) fun _ _ => resolve_fails _ st)
  | child parent segments => exact hdiscard (child_fails parent segments st)
  | reference source text =>
    refine hdiscard (Faults.after (a := st) rfl ?_)
    exact Faults.lift_bind (fun _ _ => refl st) fun _ _ => resolve_fails _ st
  | synthesize place parent content => exact hdiscard (synthesize_fails place parent content st)

/-- What holds of a store after any calls: no two nodes stand at one location, the index knows every
node by its own location and knows nothing else, and every node is read from its content and is no
reference. Until the next new start no entry of the index changes, and a call that fails changes
neither nodes nor index. -/
theorem store_invariant (h : Reaches (fun _ _ => True) {} st) :
    (∀ a b, st.Has a → st.Has b → (st.node a).location = (st.node b).location → a = b) ∧
    (∀ id, st.Has id → st.id? (st.node id).location = some id) ∧
    (∀ place id, st.id? place = some id → st.Has id) ∧
    (∀ id, st.Has id → (st.node id).keywords.reference = none ∧
      Shape.classify (st.node id).keywords = .ok (st.node id).shape) ∧
    (∀ u, Reaches (fun _ call => call ≠ .clear) st u →
      ∀ place id, st.id? place = some id → u.id? place = some id) ∧
    ∀ (files : FileSystem) (call : Call) (fault : Fault) (u : Store),
      (call.action files).run st = (.error fault, u) → u.nodes = st.nodes ∧ u.index = st.index := by
  have hs := h.sound (sound_of_empty rfl rfl)
  have hread := h.read
  refine ⟨fun _ _ => hs.unique, fun _ => hs.own, fun _ _ => hs.bound,
    fun id hid => ⟨(hread id hid).plain, (hread id hid).shape⟩, fun u hu place id => ?_,
    fun files call fault u hrun => ?_⟩
  · exact (hu.grows (fun _ h => h rfl) hs).index
  · have hsame := call.fails files st fault u hrun
    exact ⟨hsame.nodes, hsame.index⟩

-- A reference and its target, looked up in a document that is replaced afterwards.
private def aliasFiles : FileSystem := ⟨[], []⟩

private def aliasPlace : Location := ⟨"mem:///a.json", "/first"⟩

private def aliasDocument : Json :=
  .object [("first", .object [("$ref", .string "#/second")]),
    ("second", .object [("type", .string "object")])]

private def aliasFound : Store :=
  ((Call.resolve aliasPlace).action aliasFiles |>.run
    (({} : Store).register "mem:///a.json" aliasDocument)).2

private def aliasStore : Store := aliasFound.register "mem:///a.json" .null

private theorem alias_reaches : Reaches (fun _ _ => True) {} aliasStore := by
  have hfound : Calls (fun _ _ => True) (({} : Store).register "mem:///a.json" aliasDocument)
      aliasFound := Calls.of_run (.resolve aliasPlace) trivial trivial
  have hregister : ∀ (st : Store) (document : String) (content : Json),
      Calls (fun _ _ => True) st (st.register document content) := fun st document content =>
    @Calls.of_run _ aliasFiles st (.register document content) trivial trivial
  exact ((ReflTransGen.single (hregister _ _ _)).tail hfound).tail (hregister _ _ _)

theorem store_invariant_alias : aliasStore.id? aliasPlace = some ⟨0⟩ ∧
    aliasStore.id? ⟨"mem:///a.json", "/second"⟩ = some ⟨0⟩ ∧ aliasStore.Has ⟨0⟩ ∧
      (aliasStore.node ⟨0⟩).keywords.reference = none := by
  obtain ⟨-, -, hbound, hnodes, -, -⟩ := store_invariant alias_reaches
  have hfirst : aliasStore.id? aliasPlace = some ⟨0⟩ := by decide +kernel
  have hid := hbound _ _ hfirst
  exact ⟨hfirst, by decide +kernel, hid, (hnodes _ hid).1⟩

end SchemaBeans.Store
