import SchemaBeans.Proofs.Reference.Pointers
import SchemaBeans.Proofs.Store.Following

/-! # Earlier lookups do not show

Stores that are faithful to the same documents answer alike: they find nodes that cannot be told
apart but for who asked first, or they fail for the same kind of reason. Going down from a node is
looking up the longer pointer, although the one starts from the value that the node has kept and the
other one from the document. -/
namespace SchemaBeans

inductive Fault.Kind where
  | resolution
  | construct
  | name
  | discriminator
  | settings
  | file
  | endless
  deriving DecidableEq, Repr

def Fault.kind : Fault → Kind
  | unresolved _ _ => .resolution
  | unsupported _ _ => .construct
  | nameConflict _ _ _ => .name
  | discriminator _ _ => .discriminator
  | settings _ => .settings
  | file _ => .file
  | endless => .endless

/-- The nodes stand at one location and say the same. -/
structure SchemaNode.Alike (a b : SchemaNode) : Prop where
  location : a.location = b.location
  content : a.content = b.content
  keywords : a.keywords = b.keywords
  shape : a.shape = b.shape

namespace Library

variable {lib : Library} {place : Location} {fault other : Fault} {content part : Json}

theorem Fails.kind_unique (h : lib.Fails place fault) (k : lib.Fails place other) :
    fault.kind = other.kind := by
  cases h with
  | circles hagain hback =>
    cases k with
    | circles => rfl
    | breaks hlast hlook =>
      exact absurd ⟨_, hagain, hback⟩ ((final_of_error hlook).not_circles hlast)
  | breaks hlast hlook =>
    cases k with
    | circles hagain hback =>
      exact absurd ⟨_, hagain, hback⟩ ((final_of_error hlook).not_circles hlast)
    | breaks hend hbreak =>
      obtain rfl := (final_of_error hlook).unique (final_of_error hbreak) hlast hend
      rw [hlook] at hbreak
      cases hbreak
      rfl

theorem Contains.look_below (h : lib.Contains place content) (segments : List String)
    (hmissing : content.descend? segments = none) :
    lib.look (place.below segments) =
      .error (.unresolved (place.below segments).text .missingPointer) := by
  obtain ⟨hdocument, hcontent⟩ := h
  exact look_of_missing hdocument ((Json.lookup?_below hcontent segments).trans hmissing)

end Library

namespace Store

open Relation

variable {files : FileSystem} {lib : Library} {st s t u : Store} {place : Location}
  {parent : NodeId} {r q : Except Fault NodeId}

/-- Two answers, each with the store it leaves: both find nodes that are alike, or both fail for the
same kind of reason. -/
inductive Agree : Except Fault NodeId × Store → Except Fault NodeId × Store → Prop
  | nodes {a b : NodeId} {s t : Store} (ha : s.Has a) (hb : t.Has b)
      (halike : (s.node a).Alike (t.node b)) : Agree (.ok a, s) (.ok b, t)
  | faults {e f : Fault} {s t : Store} (hkind : e.kind = f.kind) : Agree (.error e, s) (.error f, t)

/-- The answer is where the chain of references from the location ends, or why it has no end. -/
inductive Answers (lib : Library) (place : Location) (t : Store) : Except Fault NodeId → Prop
  | found {id : NodeId} (h : t.id? place = some id) : Answers lib place t (.ok id)
  | fails {fault cause : Fault} (hcause : lib.Fails place cause) (hkind : fault.kind = cause.kind) :
      Answers lib place t (.error fault)

theorem Faithful.alike (hs : s.Faithful files lib) (ht : t.Faithful files lib) {a b : NodeId}
    (ha : s.Has a) (hb : t.Has b) (hlocation : (s.node a).location = (t.node b).location) :
    (s.node a).Alike (t.node b) := by
  have hcontent : (s.node a).content = (t.node b).content :=
    Library.contains_unique (hs.contents a ha) (hlocation ▸ ht.contents b hb)
  have hread := hs.read a ha
  have kread := ht.read b hb
  have hkeywords : (s.node a).keywords = (t.node b).keywords := by
    refine Except.ok.inj (hread.keywords.symm.trans ?_)
    rw [hlocation, hcontent]
    exact kread.keywords
  refine ⟨hlocation, hcontent, hkeywords, Except.ok.inj (hread.shape.symm.trans ?_)⟩
  rw [hkeywords]
  exact kread.shape

theorem Answers.agree (h : Answers lib place s r) (k : Answers lib place t q)
    (hs : s.Faithful files lib) (ht : t.Faithful files lib) : Agree (r, s) (q, t) := by
  have hschema : ∀ {v : Store} {id : NodeId}, v.Faithful files lib → v.id? place = some id →
      ∀ {cause}, ¬ lib.Fails place cause := fun hv hid _ hfails =>
    hfails.not_schema (hv.leads place _ hid) (hv.hasSchema (hv.bound hid))
  cases h with
  | @found a ha =>
    cases k with
    | @found b hb =>
      have hfinal := (hs.hasSchema (hs.bound ha)).final
      refine .nodes (hs.bound ha) (ht.bound hb) (hs.alike ht (hs.bound ha) (ht.bound hb) ?_)
      exact hfinal.unique (ht.hasSchema (ht.bound hb)).final (hs.leads _ _ ha) (ht.leads _ _ hb)
    | fails kcause _ => exact absurd kcause (hschema hs ha)
  | fails hcause hkind =>
    cases k with
    | found hb => exact absurd hcause (hschema ht hb)
    | fails kcause kkind => exact .faults (by rw [hkind, kkind, hcause.kind_unique kcause])

theorem child_stays (h : st.Faithful files lib) (hp : st.Has parent) (segments : List String) :
    Follows (Stays files lib) (child files parent segments) st fun _ _ => True := by
  unfold child
  refine Follows.after (a := st) rfl (Follows.after (a := st) rfl ?_)
  simp only
  cases hid : st.id? ((st.node parent).location.below segments) with
  | some id => exact Follows.pure trivial
  | none =>
    simp only
    cases hcontent : (st.node parent).content.descend? segments with
    | none => exact Follows.throw_bind
    | some content =>
      have hcontains := (h.contents parent hp).below segments hcontent
      refine Follows.after (a := st) rfl ?_
      refine (materialize_stays hid hcontains (fun target _ => ?_) h (some parent)).bind ?_
      · exact follow_stays_free (follow_stays _ _ target st h) h.toSound hid
      · exact fun id t _ _ => Follows.after (a := t) rfl (Follows.pure trivial)

theorem child_faults (h : st.Faithful files lib) (hp : st.Has parent) (segments : List String) :
    Faults (child files parent segments) st fun fault _ => fault = .endless ∨ ∃ cause,
      lib.Fails ((st.node parent).location.below segments) cause ∧ fault.kind = cause.kind := by
  unfold child
  refine Faults.after (a := st) rfl (Faults.after (a := st) rfl ?_)
  simp only
  cases st.id? ((st.node parent).location.below segments) with
  | some id => exact Faults.pure _
  | none =>
    simp only
    cases hcontent : (st.node parent).content.descend? segments with
    | none =>
      have hlook := (h.contents parent hp).look_below segments hcontent
      exact (Faults.throw (.inr ⟨_, .breaks .refl hlook, rfl⟩)).bind fun _ _ h => by cases h
    | some content =>
      have hcontains := (h.contents parent hp).below segments hcontent
      refine Faults.after (a := st) rfl ?_
      refine ((materialize_faults hcontains (fun target hrefers => ?_) (some parent)).imp
        fun fault _ hfault => hfault.imp_right fun hfails => ⟨fault, hfails, rfl⟩).bind ?_
      · refine follow_faults _ _ target st h fun passed hpassed => ?_
        rw [List.mem_singleton.mp hpassed]
        exact .single hrefers
      · exact fun id t _ => Faults.after (a := t) rfl (Faults.pure _)

theorem resolve_answer (h : st.Faithful files lib) (place : Location) :
    ∃ r t, (resolve files place).run st = (r, t) ∧ t.Faithful files lib ∧
    Answers lib place t r := by
  obtain ⟨r, t, hrun, ht, ⟨id, rfl, hid⟩ | ⟨fault, rfl, hfails⟩⟩ := resolve_answers h place
  · exact ⟨_, t, hrun, ht, .found hid⟩
  · exact ⟨_, t, hrun, ht, .fails hfails rfl⟩

theorem child_answer (h : st.Faithful files lib) (hp : st.Has parent) (segments : List String) :
    ∃ r t, (Child.id <$> child files parent segments).run st = (r, t) ∧ t.Faithful files lib ∧
      Answers lib ((st.node parent).location.below segments) t r := by
  rcases hrun : (child files parent segments).run st with ⟨r, t⟩
  have hends := (child_ends files st parent segments _ _ hrun).1
  have ht := (child_stays h hp segments _ _ hrun hends).1 h
  have hgrows := (child_grows segments h.toSound hp _ _ hrun hends)
  have hmap : (Child.id <$> child files parent segments).run st = (r.map Child.id, t) := by
    rw [map_eq_pure_bind, run_bind, hrun]
    cases r <;> rfl
  refine ⟨_, t, hmap, ht, ?_⟩
  cases r with
  | ok found =>
    have hknown := (hgrows.2 found rfl).known
    rw [hgrows.1.node hp] at hknown
    exact .found hknown
  | error fault =>
    rcases child_faults h hp segments fault t hrun with rfl | ⟨cause, hcause, hkind⟩
    · exact absurd rfl hends
    · exact .fails hcause hkind

/-- Calls that only ask for schemas. -/
inductive Call.Looks : Call → Prop
  | resolve (place : Location) : Looks (.resolve place)
  | load (path : String) : Looks (.load path)
  | child (parent : NodeId) (segments : List String) : Looks (.child parent segments)
  | reference (source : NodeId) (text : String) : Looks (.reference source text)

theorem Call.Looks.stays {call : Call} (hlooks : call.Looks) (hknown : call.Known st)
    (h : st.Faithful files lib) :
    Follows (Stays files lib) (call.action files) st fun _ _ => True := by
  have hdiscard : ∀ {α : Type} {x : Action α}, Follows (Stays files lib) x st (fun _ _ => True) →
      Follows (Stays files lib) (do let _ ← x) st fun _ _ => True :=
    fun h => h.bind fun _ _ _ _ => Follows.pure trivial
  cases hlooks with
  | resolve place => exact hdiscard (resolve_stays h place)
  | load path => exact hdiscard (Follows.lift_bind fun _ _ => resolve_stays h _)
  | child parent segments => exact hdiscard (child_stays h hknown segments)
  | reference source text =>
    exact hdiscard (Follows.after (a := st) rfl (Follows.lift_bind fun _ _ => resolve_stays h _))

def Looks (files : FileSystem) (other : FileSystem) (call : Call) : Prop :=
  other = files ∧ call.Looks

theorem Reaches.faithful (h : Reaches (Looks files) st u) (hst : st.Faithful files lib) :
    u.Faithful files lib := by
  induction h with
  | refl => exact hst
  | @tail t _ _ hcall ih =>
    cases hcall with | @intro _ call r hallowed hknown hrun
    obtain ⟨rfl, hlooks⟩ := hallowed
    exact (hlooks.stays hknown ih _ _ hrun (call.ends _ t _ _ hrun).1).1 ih

/-- After any lookups, a location answers as in the store that only knows the documents. The way
down from a node answers as the location it leads to, and the one finds the node that the other one
has found. -/
theorem lookups_transparent {documents : List (String × Json)}
    (h : Reaches (Looks files) { documents } st) :
    (∀ place, Agree ((resolve files place).run st) ((resolve files place).run { documents })) ∧
    ∀ parent segments, st.Has parent →
      let below := (st.node parent).location.below segments
      Agree ((Child.id <$> child files parent segments).run st) ((resolve files below).run st) ∧
      (∀ found t, (child files parent segments).run st = (.ok found, t) →
        (resolve files below).run t = (.ok found.id, t)) ∧
      ∀ id t, (resolve files below).run st = (.ok id, t) →
        (Child.id <$> child files parent segments).run t = (.ok id, t) := by
  have hfresh := faithful_of_empty files documents
  have hst := h.faithful hfresh
  refine ⟨fun place => ?_, fun parent segments hp =>
    ⟨?_, fun found t hrun => ?_, fun id t hrun => ?_⟩⟩
  · obtain ⟨r, s, hrun, hs, hr⟩ := resolve_answer hst place
    obtain ⟨q, t, krun, ht, hq⟩ := resolve_answer hfresh place
    rw [hrun, krun]
    exact hr.agree hq hs ht
  · obtain ⟨r, s, hrun, hs, hr⟩ := child_answer hst hp segments
    obtain ⟨q, t, krun, ht, hq⟩ := resolve_answer hst ((st.node parent).location.below segments)
    rw [hrun, krun]
    exact hr.agree hq hs ht
  · obtain ⟨hgrows, hfound⟩ := (child_grows segments hst.toSound hp).success hrun
    have hknown := hfound.known
    rw [hgrows.node hp] at hknown
    exact resolve_repeats hknown
  · obtain ⟨hgrows, hid⟩ := (resolve_grows files _ hst.toSound).success hrun
    have hfound : t.Found parent segments ⟨id, decide ((t.node id).location ≠
        (t.node parent).location.below segments)⟩ := ⟨by rw [hgrows.node hp]; exact hid, rfl⟩
    have hrepeats : (child files parent segments).run t = (.ok ⟨id, _⟩, t) := child_repeats hfound
    rw [map_eq_pure_bind, run_bind, hrepeats]
    rfl

-- A property that refers to another one, looked up from above after the other one.
private def sharedFiles : FileSystem := ⟨[], []⟩

private def sharedDocuments : List (String × Json) :=
  [("mem:///a.json", .object [("first", .object [("$ref", .string "#/second")]),
    ("second", .object [("type", .string "object")])])]

private def sharedStore : Store :=
  ((Call.resolve ⟨"mem:///a.json", "/second"⟩).action sharedFiles |>.run
    ((Call.resolve (.root "mem:///a.json")).action sharedFiles |>.run
      { documents := sharedDocuments }).2).2

private theorem shared_reaches :
    Reaches (Looks sharedFiles) { documents := sharedDocuments } sharedStore :=
  (ReflTransGen.single (Calls.of_run (.resolve (.root "mem:///a.json"))
    ⟨rfl, .resolve _⟩ trivial)).tail (Calls.of_run (.resolve _) ⟨rfl, .resolve _⟩ trivial)

theorem lookups_transparent_shared : sharedStore.Has ⟨0⟩ ∧
    Agree ((Child.id <$> child sharedFiles ⟨0⟩ ["first"]).run sharedStore)
      ((resolve sharedFiles ⟨"mem:///a.json", "/first"⟩).run sharedStore) ∧
    ((child sharedFiles ⟨0⟩ ["first"]).run sharedStore).1.toOption = some ⟨⟨1⟩, true⟩ := by
  have hp : sharedStore.Has ⟨0⟩ := by
    unfold Has
    decide +kernel
  have hagree := ((lookups_transparent shared_reaches).2 ⟨0⟩ ["first"] hp).1
  have hplace : (sharedStore.node ⟨0⟩).location.below ["first"] = ⟨"mem:///a.json", "/first"⟩ := by
    decide +kernel
  rw [hplace] at hagree
  exact ⟨hp, hagree, by decide +kernel⟩

end Store

end SchemaBeans
