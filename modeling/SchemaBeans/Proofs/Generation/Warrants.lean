import SchemaBeans.Proofs.Generation.Asking
import SchemaBeans.Proofs.Generation.Records

/-! # Every type is as it was asked for

Whatever a run generates was asked for, so every type stands at the place of a schema that is
asked for and has the package and the name of one of its askings. The rules keep this from call
to call: a rule that is called for a schema that is asked for calls others only for what the
schema hands on. -/
namespace SchemaBeans

theorem Request.asking_keeps {g h : TypeGraph} {request : Request} (hk : g.Keeps h) (hg : g.Nests)
    (hh : h.Nests) (hfits : request.Fits g) : request.asking h = request.asking g := by
  obtain ⟨name, placement⟩ := request
  cases placement with
  | topLevel => rfl
  | inside owner =>
    have howner := hfits owner rfl
    simp only [Request.asking, hk.package howner, hk.qualifiedName hg hh howner]

theorem Store.Truthful.stands {files : FileSystem} {lib : Library} {st : Store} {place : Location}
    {id : NodeId} (h : st.Truthful files lib) (hid : st.id? place = some id) :
    lib.Stands place (st.node id).alone :=
  have hread := h.read id (h.bound hid)
  ⟨⟨hread.keywords, hread.plain, hread.shape⟩, h.finds place id hid, rfl⟩

namespace Drafting

variable {ctx : Context} {lib : Library} {starts : Location → Prop} {rule : Rule} {d e : Draft}
  {id : NodeId} {type : TypeId} {request : Request} {kind : TypeKind}

/-- The schema at the place of the type is asked for, and has the type declared under this name. -/
structure Warrant (settings : Settings) (lib : Library) (starts : Location → Prop) (g : TypeGraph)
    (type : TypeId) (schema : SchemaNode) (asking : Asking) : Prop where
  asked : lib.Asked settings starts schema asking
  place : schema.location = (g.get type).place
  library : library? schema = none
  kind : lib.Declares schema (g.get type).kind
  named : ((g.get type).package, g.qualifiedName type) = asking.named settings schema.keywords

theorem Warrant.keeps {settings : Settings} {g h : TypeGraph} {schema : SchemaNode}
    {asking : Asking} (hk : g.Keeps h) (hg : g.Nests) (hh : h.Nests) (htype : g.Has type)
    (hw : Warrant settings lib starts g type schema asking) :
    Warrant settings lib starts h type schema asking where
  asked := hw.asked
  place := hw.place.trans (hk.place htype).symm
  library := hw.library
  kind := by
    rw [hk.kind htype]
    exact hw.kind
  named := by
    rw [hk.package htype, hk.qualifiedName hg hh htype]
    exact hw.named

/-- Every type was asked for, and is named as it was. -/
structure Warranted (ctx : Context) (lib : Library) (starts : Location → Prop) (d : Draft) :
    Prop where
  store : d.store.Truthful ctx.files lib
  nests : d.graph.Nests
  types : ∀ type, d.graph.Has type → ∃ schema asking,
    Warrant ctx.settings lib starts d.graph type schema asking

/-- A step that declares nothing but what was asked for. -/
structure Tells (ctx : Context) (lib : Library) (starts : Location → Prop) (d e : Draft) :
    Prop where
  grows : d.store.Grows e.store
  keeps : d.graph.Keeps e.graph
  warranted : Warranted ctx lib starts d → Warranted ctx lib starts e

instance : IsPreorder Draft (Tells ctx lib starts) where
  refl d := ⟨refl d.store, .refl _, fun h => h⟩
  trans _ _ _ h k := ⟨IsTrans.trans _ _ _ h.grows k.grows, h.keeps.trans k.keeps,
    fun hd => k.warranted (h.warranted hd)⟩

theorem tells_scans (hs : Scans d e) (hl : Learns ctx lib d e) : Tells ctx lib starts d e where
  grows := hs.grows
  keeps := by
    rw [hs.graph]
    exact .refl _
  warranted h := by
    refine ⟨hl h.store, ?_, ?_⟩ <;> rw [hs.graph]
    · exact h.nests
    · exact h.types

theorem tells_graph {g : TypeGraph} (hk : d.graph.Keeps g) (hsize : g.size = d.graph.size) :
    Tells ctx lib starts d { d with graph := g } where
  grows := refl d.store
  keeps := hk
  warranted h := by
    have hnests := hk.nests hsize h.nests
    refine ⟨h.store, hnests, fun type htype => ?_⟩
    have hold : d.graph.Has type := (TypeGraph.has_of_size hsize).mp htype
    obtain ⟨schema, asking, hw⟩ := h.types type hold
    exact ⟨schema, asking, hw.keeps hk h.nests hnests hold⟩

theorem tells_families (families : List Family) :
    Tells ctx lib starts d { d with families } where
  grows := refl d.store
  keeps := .refl _
  warranted h := ⟨h.store, h.nests, h.types⟩

theorem update_tells {change : TypeDecl → TypeDecl} (hhead : ∀ t, (change t).head = t.head)
    (hnested : ∀ t, (change t).nested = t.nested) :
    Follows (Tells ctx lib starts) (update type change) d fun _ _ => True :=
  Follows.change
    (tells_graph (TypeGraph.keeps_update _ _ hhead hnested) (TypeGraph.size_update _ _ _)) trivial

theorem child_tells (hd : Warranted ctx lib starts d) (hid : d.store.Has id)
    {segments : List String} (hsegments : Subschema segments) :
    Follows (Tells ctx lib starts) (child ctx id segments) d fun found e =>
      e.store.Found id segments found := by
  have hchild := child_follows (R := Scans) ctx segments hd.store.toSound hid fun _ hg =>
    scans_schemas hg
  refine ((child_learns hd.store hid hsegments).meet hchild fun _ hl hs => tells_scans hs hl).imp ?_
  rintro found e - ⟨-, -, hfound⟩
  exact hfound

theorem resolve_tells (hd : Warranted ctx lib starts d) (place : Location) :
    Follows (Tells ctx lib starts) (inStore (Store.resolve ctx.files place)) d fun id e =>
      e.store.id? place = some id := by
  have hknown := inStore_follows (R := Scans)
    (Store.resolve_grows ctx.files place hd.store.toSound) fun _ hg => scans_schemas hg
  refine ((inStore_learns (Store.resolve_learns hd.store place)).meet hknown
    fun _ hl hs => tells_scans hs hl).imp ?_
  rintro id e - ⟨-, -, hid⟩
  exact hid

theorem resolveReference_tells (hd : Warranted ctx lib starts d) (id : NodeId) (text : String) :
    Follows (Tells ctx lib starts) (inStore (Store.resolveReference ctx.files id text)) d
      fun target e => ∃ place,
        Location.ofReference (d.store.node id).location.document text = .ok place ∧
          e.store.id? place = some target := by
  refine ((inStore_learns (Store.resolveReference_learns hd.store id text)).meet
    (inStore_follows (R := Scans) (Store.resolveReference_known id text hd.store.toSound)
      fun _ hg => scans_schemas hg) fun _ hl hs => tells_scans hs hl).imp ?_
  rintro target e - ⟨-, -, hknown⟩
  exact hknown

theorem mergeAllOf_tells (f : Nat) (hd : Warranted ctx lib starts d) (hid : d.store.Has id)
    (hshape : (d.store.node id).shape = .allOf) :
    Follows (Tells ctx lib starts) (mergeAllOf ctx f id) d fun made e =>
      e.store.id? ((d.store.node id).location.below ["allOf"]) = some made := by
  have hscans := mergeAllOf_scans ctx f id d hd.store.toSound hid
  refine ((mergeAllOf_learns ctx f id d hd.store hid hshape).meet hscans fun _ hl hs =>
    tells_scans hs hl).imp ?_
  rintro made e hde ⟨-, -, hmerges⟩
  rw [← hde.grows.node hid]
  exact hmerges.place

/-- A rule is called for a schema that is asked for in this way. -/
structure Called (ctx : Context) (lib : Library) (starts : Location → Prop) (d : Draft)
    (request : Request) (id : NodeId) : Prop extends Warranted ctx lib starts d where
  has : d.store.Has id
  fits : request.Fits d.graph
  asked : lib.Asked ctx.settings starts (d.store.node id).alone (request.asking d.graph)

theorem Called.after (h : Called ctx lib starts d request id) (hde : Tells ctx lib starts d e) :
    Called ctx lib starts e request id := by
  have he := hde.warranted h.toWarranted
  refine ⟨he, hde.grows.has h.has, h.fits.keeps hde.keeps, ?_⟩
  rw [hde.grows.node h.has, Request.asking_keeps hde.keeps h.nests he.nests h.fits]
  exact h.asked

def Heeds (ctx : Context) (lib : Library) (starts : Location → Prop) (rule : Rule) : Prop :=
  ∀ d request id, Called ctx lib starts d request id →
    Follows (Tells ctx lib starts) (rule request id) d fun _ _ => True

/-- The call for something that the schema hands on. -/
theorem Called.generate (h : Called ctx lib starts d request id) (hrule : Heeds ctx lib starts rule)
    (hlib : library? (d.store.node id) = none) {segments : List String} {found : Store.Child}
    (hfound : d.store.Found id segments found) {name : String} {placement : Placement}
    (hfits : Request.Fits ⟨name, placement⟩ d.graph)
    (hhands : lib.Hands ctx.settings (d.store.node id).alone (request.asking d.graph)
      ((d.store.node id).location.below segments) (Request.asking ⟨name, placement⟩ d.graph)) :
    Follows (Tells ctx lib starts)
      (requestFor found name placement >>= fun request => rule request found.id) d
      fun _ _ => True := by
  have hasked := h.asked.handed hlib hhands (h.store.stands hfound.known)
  have hhas := hfound.has h.store.toSound
  unfold Asking.reaching at hasked
  unfold requestFor
  by_cases hplace : (d.store.node found.id).alone.location =
      (d.store.node id).location.below segments
  · rw [if_pos hplace] at hasked
    rw [if_neg (by simp [hfound.byReference, ← hplace, SchemaNode.alone])]
    refine Follows.after (Repeats.pure d _) (hrule d _ _ ⟨h.toWarranted, hhas, hfits, hasked⟩)
  · rw [if_neg hplace] at hasked
    rw [if_pos (by rw [hfound.byReference]; exact decide_eq_true hplace)]
    exact Follows.after (Repeats.bind (a := d.store.node found.id) rfl (Repeats.pure d _))
      (hrule d _ _ ⟨h.toWarranted, hhas, (fun _ ho => by cases ho), hasked⟩)

/-- The type was declared for the schema that is asked for. -/
structure Owned (ctx : Context) (lib : Library) (starts : Location → Prop) (d : Draft)
    (request : Request) (id : NodeId) (type : TypeId) (kind : TypeKind) : Prop
    extends Called ctx lib starts d request id where
  declared : d.graph.Has type
  library : library? (d.store.node id) = none
  kind : lib.Declares (d.store.node id).alone kind
  named : ((d.graph.get type).package, d.graph.qualifiedName type) =
    (request.asking d.graph).named ctx.settings (d.store.node id).keywords

theorem Owned.after (h : Owned ctx lib starts d request id type kind)
    (hde : Tells ctx lib starts d e) : Owned ctx lib starts e request id type kind := by
  have hnode := hde.grows.node h.has
  have he := hde.warranted h.toWarranted
  refine ⟨h.toCalled.after hde, hde.keeps.has h.declared, ?_, ?_, ?_⟩
  · rw [hnode]
    exact h.library
  · rw [hnode]
    exact h.kind
  · rw [hnode, Request.asking_keeps hde.keeps h.nests he.nests h.fits, ← h.named,
      hde.keeps.package h.declared, hde.keeps.qualifiedName h.nests he.nests h.declared]

theorem Owned.inside (h : Owned ctx lib starts d request id type kind) (name : String) :
    Request.asking ⟨name, .inside type⟩ d.graph =
      ⟨name, some ((request.asking d.graph).named ctx.settings (d.store.node id).keywords)⟩ := by
  rw [← h.named]
  rfl

theorem named_declared (h : Called ctx lib starts d request id) (kind : TypeKind) :
    (((declared ctx d request id kind).graph.get ⟨d.graph.size⟩).package,
      (declared ctx d request id kind).graph.qualifiedName ⟨d.graph.size⟩) =
        (request.asking d.graph).named ctx.settings (d.store.node id).keywords := by
  rw [Request.named_asking]
  refine Prod.ext ?_ ?_
  · simp only [declared, TypeGraph.get_insert_self]
  · exact qualifiedName_insert (h.nests.insert rfl fun _ howner => has_owner h.fits howner) h.nests
      h.fits rfl rfl rfl

theorem tells_declared (h : Called ctx lib starts d request id)
    (hlib : library? (d.store.node id) = none)
    (hkind : lib.Declares (d.store.node id).alone kind) :
    Tells ctx lib starts d (declared ctx d request id kind) where
  grows := refl d.store
  keeps := TypeGraph.keeps_insert _ _
  warranted hd := by
    have hnests : (declared ctx d request id kind).graph.Nests :=
      hd.nests.insert rfl fun _ howner => has_owner h.fits howner
    refine ⟨hd.store, hnests, fun type htype => ?_⟩
    rcases TypeGraph.has_insert.mp htype with hold | rfl
    · obtain ⟨schema, asking, hw⟩ := hd.types type hold
      exact ⟨schema, asking, hw.keeps (TypeGraph.keeps_insert _ _) hd.nests hnests hold⟩
    · refine ⟨_, _, h.asked, ?_, hlib, ?_, named_declared h kind⟩
      · simp only [declared, TypeGraph.get_insert_self]
        rfl
      · simp only [declared, TypeGraph.get_insert_self]
        exact hkind

theorem owned_declared (h : Called ctx lib starts d request id)
    (hlib : library? (d.store.node id) = none)
    (hkind : lib.Declares (d.store.node id).alone kind) :
    Owned ctx lib starts (declared ctx d request id kind) request id ⟨d.graph.size⟩ kind := by
  have hde := tells_declared h hlib hkind
  have he := h.after hde
  refine ⟨he, TypeGraph.has_insert.mpr (.inr rfl), hlib, hkind, ?_⟩
  rw [Request.asking_keeps hde.keeps h.nests he.nests h.fits]
  exact named_declared h kind

theorem declare_tells (h : Called ctx lib starts d request id)
    (hlib : library? (d.store.node id) = none)
    (hkind : lib.Declares (d.store.node id).alone kind) :
    Follows (Tells ctx lib starts) (declare ctx request id kind) d fun made e =>
      ∀ type, made = .created type → Owned ctx lib starts e request id type kind := by
  unfold declare
  refine Follows.after (a := d.store.node id) rfl (Follows.after (a := d) rfl ?_)
  refine Follows.after (a := d) rfl (Follows.lift_bind fun claim _ => ?_)
  cases claim with
  | taken other => exact Follows.pure fun _ hmade => by cases hmade
  | vacant =>
    refine Follows.lift_bind fun _ _ => ?_
    refine Follows.change_bind (tells_declared h hlib hkind) (Follows.pure fun type hmade => ?_)
    obtain rfl := Registration.created.inj hmade
    exact owned_declared h hlib hkind

end Drafting

end SchemaBeans
