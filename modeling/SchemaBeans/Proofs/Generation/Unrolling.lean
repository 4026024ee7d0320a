import SchemaBeans.Proofs.Generation.Copies
import SchemaBeans.Proofs.Generation.RuleRuns
import SchemaBeans.Proofs.Generation.Termination
import SchemaBeans.Proofs.Reference.Pointers
import SchemaBeans.Proofs.Store.Making

/-! # Copies of a class below it

A class with a property that stands for the merge of the class is copied when it comes to that
property. The copy stands deeper in the document than everything met so far, so it is no schema that
has a type: it is generated next, as a class of the same sort. The scalars beside the property add
nothing to what is known further down. -/
namespace SchemaBeans

open Json (Recursive Atomic mergeOf)

namespace Location

def depth (place : Location) : Nat := place.pointer.toList.count '/'

theorem document_below (place : Location) (segments : List String) :
    (place.below segments).document = place.document := by
  rw [below]

theorem depth_below (place : Location) (segments : List String) :
    (place.below segments).depth = place.depth + segments.length := by
  have hpush : ∀ pointer segment, (Pointer.push pointer segment).toList.count '/' =
      pointer.toList.count '/' + 1 := by
    intro pointer segment
    unfold Pointer.push
    rw [String.toList_ofList, List.count_append, List.count_cons_self,
      List.count_eq_zero.mpr (Pointer.not_mem_escape _)]
  have hall : ∀ (segments : List String) (pointer : String),
      (segments.foldl Pointer.push pointer).toList.count '/' =
        pointer.toList.count '/' + segments.length := by
    intro segments
    induction segments with
    | nil => exact fun _ => rfl
    | cons segment rest ih =>
      intro pointer
      rw [List.foldl_cons, ih, hpush, List.length_cons]
      omega
  exact hall segments place.pointer

theorem below_property_inj {place : Location} {a b : String}
    (h : place.below ["properties", a] = place.below ["properties", b]) : a = b := by
  have hpointer := congrArg pointer h
  simp only [below, List.foldl_cons, List.foldl_nil] at hpointer
  have hescape := congrArg Pointer.unescape (Pointer.push_inj hpointer).2
  rw [Pointer.unescape_escape, Pointer.unescape_escape] at hescape
  exact String.toList_inj.mp hescape

end Location

namespace Drafting

variable {ctx : Context} {d e : Draft} {n k : Nat} {id made : NodeId} {type : TypeId}
  {root : Location} {key : String} {done : List String} {request : Request}

structure Unrolls (root : Location) (key : String) (schema : SchemaNode)
    (properties : Json.Members) : Prop where
  read : schema.Read
  document : schema.location.document = root.document
  content : ∃ members, schema.content = .object members ∧ Recursive root key members properties

theorem Unrolls.plain {schema : SchemaNode} {properties : Json.Members}
    (h : Unrolls root key schema properties) :
    schema.keywords.Plain properties ∧ schema.shape = .object := by
  obtain ⟨members, hcontent, hrecursive⟩ := h.content
  have hread := h.read.keywords
  rw [hcontent] at hread
  have hplain := hrecursive.reads hread
  refine ⟨hplain, ?_⟩
  have hshape := h.read.shape
  rw [hplain.shape] at hshape
  exact (Except.ok.inj hshape).symm

theorem Unrolls.property {schema : SchemaNode} {properties : Json.Members} {name : String}
    {v : Json} (h : Unrolls root key schema properties) (hv : properties.lookup name = some v) :
    schema.content.descend? ["properties", name] = some v := by
  obtain ⟨members, hcontent, hrecursive⟩ := h.content
  have hfirst : (Json.object members).step? "properties" = some (.object properties) :=
    hrecursive.listed
  have hsecond : (Json.object properties).step? name = some v := hv
  rw [hcontent, Json.descend?_cons, hfirst, Option.bind_some, Json.descend?_cons, hsecond]
  rfl

def Origin (root : Location) (key : String) (st : Store) : Prop :=
  ∃ origin properties, st.id? root = some origin ∧ (st.node origin).location = root ∧
    Unrolls root key (st.node origin) properties

theorem Origin.grows {st u : Store} (h : Origin root key st) (hs : st.Sound) (hg : st.Grows u) :
    Origin root key u := by
  obtain ⟨origin, properties, hid, hplace, hunrolls⟩ := h
  refine ⟨origin, properties, hg.index hid, ?_⟩
  rw [hg.node (hs.bound hid)]
  exact ⟨hplace, hunrolls⟩

/-- A class that contains itself, and no type and no schema deep below it is known yet. -/
structure Ready (root : Location) (key : String) (d : Draft) (id : NodeId) : Prop where
  consistent : Consistent d
  merging : d.merging = []
  has : d.store.Has id
  origin : Origin root key d.store
  unrolls : ∃ properties, Unrolls root key (d.store.node id) properties
  known : ∀ other, d.store.id? other ≠ none → other.depth ≤ (d.store.node id).location.depth + 1
  types : ∀ type, d.graph.Has type →
    (d.graph.get type).place.depth < (d.store.node id).location.depth

/-- The class is declared and has the properties that are done. -/
structure Unrolling (ctx : Context) (k : Nat) (root : Location) (key : String) (id : NodeId)
    (type : TypeId) (done : List String) (d : Draft) : Prop
    extends Opening ctx k id type done d where
  merging : d.merging = []
  origin : Origin root key d.store
  known : ∀ other, d.store.id? other ≠ none →
    other.depth ≤ (d.store.node id).location.depth + 1 ∨
      ∃ name ∈ done, other = (d.store.node id).location.below ["properties", name]
  types : ∀ type, d.graph.Has type →
    (d.graph.get type).place.depth ≤ (d.store.node id).location.depth

theorem Unrolling.free (h : Unrolling ctx k root key id type done d) {name : String}
    (hname : name ∉ done) :
    d.store.id? ((d.store.node id).location.below ["properties", name]) = none := by
  by_contra hknown
  rcases h.known _ hknown with hdepth | ⟨other, hother, heq⟩
  · rw [Location.depth_below] at hdepth
    simp at hdepth
  · exact hname (Location.below_property_inj heq ▸ hother)

theorem Ready.untyped (h : Ready root key d id) :
    d.graph.typeAt? (d.store.node id).location = none :=
  (TypeGraph.typeAt?_eq_none h.consistent.placed).mpr fun type htype heq => by
    have hlt := h.types type htype
    rw [heq] at hlt
    exact Nat.lt_irrefl _ hlt

theorem Unrolls.library {schema : SchemaNode} {properties : Json.Members}
    (h : Unrolls root key schema properties) : library? schema = none := by
  obtain ⟨hplain, hshape⟩ := h.plain
  simp [library?, hplain.existing, hshape, mayNameLibrary]

theorem dispatch_primitive (ctx : Context) (n : Nat) {p : Primitive}
    (hshape : (d.store.node id).shape = .primitive p) (request : Request) : ∃ t,
      Repeats (dispatch ctx (n + 1) request id) d t := by
  rw [dispatch]
  cases htype : d.graph.typeAt? (d.store.node id).location with
  | some type => exact ⟨_, dispatchWith_typed htype⟩
  | none =>
    cases hlib : library? (d.store.node id) with
    | some name => exact ⟨_, dispatchWith_library htype hlib⟩
    | none =>
      refine ⟨primitiveType ctx.settings (d.store.node id).keywords p, ?_⟩
      refine (dispatchWith_shape htype hlib).trans ?_
      rw [hshape]
      exact Repeats.bind (a := d.store.node id) rfl (Repeats.pure d _)

theorem requestFor_inline {found : Store.Child} (h : found.byReference = false) (name : String)
    (placement : Placement) : Repeats (requestFor found name placement) d ⟨name, placement⟩ := by
  unfold requestFor
  rw [if_neg (by simp [h])]
  exact Repeats.pure d _

theorem Unrolling.add (h : Unrolling ctx k root key id type done d) {name : String} {base : Nat}
    (hacts : Acts ctx base d e) (hopening : Opening ctx k id type (done ++ [name]) e)
    (hmerging : e.merging = d.merging) (hsize : e.graph.size = d.graph.size)
    (hknown : ∀ other, e.store.id? other ≠ none →
      other = (d.store.node id).location.below ["properties", name] ∨ d.store.id? other ≠ none) :
    Unrolling ctx k root key id type (done ++ [name]) e := by
  have hnode := hacts.retains.grows.node h.node
  refine ⟨hopening, hmerging.trans h.merging,
    h.origin.grows h.consistent.store hacts.retains.grows, fun other hother => ?_,
    fun other hother => ?_⟩
  · rw [hnode]
    rcases hknown other hother with rfl | hold
    · exact .inr ⟨name, by simp, rfl⟩
    · refine (h.known other hold).imp_right ?_
      rintro ⟨earlier, hearlier, rfl⟩
      exact ⟨earlier, List.mem_append_left _ hearlier, rfl⟩
  · have hold := (TypeGraph.has_of_size hsize).mp hother
    rw [hacts.keeps.place hold, hnode]
    exact h.types other hold

theorem addProperty_scalar {properties : Json.Members} {name : String} {v : Json}
    (h : Unrolling ctx (n + 1) root key id type done d)
    (hunrolls : Unrolls root key (d.store.node id) properties) (hname : name ≠ key)
    (hnew : name ∉ done) (hv : properties.lookup name = some v) :
    Ends (addProperty ctx (dispatch ctx (n + 1)) type id
      (d.store.node id).keywords.requiredKeys name) d fun _ e => Acts ctx type.index d e ∧
        Unrolling ctx (n + 1) root key id type (done ++ [name]) e := by
  obtain ⟨members, hcontent, hrecursive⟩ := hunrolls.content
  obtain ⟨scalar, rfl, hatomic⟩ := hrecursive.scalars name v hname hv
  have hends : Ends (addProperty ctx (dispatch ctx (n + 1)) type id
      (d.store.node id).keywords.requiredKeys name) d fun _ e =>
        e.merging = d.merging ∧ e.graph.size = d.graph.size ∧ ∀ other, e.store.id? other ≠ none →
          other = (d.store.node id).location.below ["properties", name] ∨
            d.store.id? other ≠ none := by
    unfold addProperty
    refine (inStore_ends (Store.child_makes ctx.files (h.free hnew)
      (hunrolls.property hv) fun k hk => (hatomic.reads hk).1)).bind ?_
    rintro found e ⟨he, hby, hmakes⟩
    have hread := hmakes.read.keywords
    rw [hmakes.content] at hread
    obtain ⟨-, primitive, hclassify⟩ := hatomic.reads hread
    have hshape : (e.store.node found.id).shape = .primitive primitive := by
      have hshape := hmakes.read.shape
      rw [hclassify] at hshape
      exact (Except.ok.inj hshape).symm
    obtain ⟨t, ht⟩ := dispatch_primitive ctx n hshape ⟨name, .inside type⟩
    refine Ends.after (a := e.store.node found.id) rfl ?_
    refine Ends.after (requestFor_inline hby name _) (Ends.after ht ?_)
    refine Ends.after (a := e.graph.get type) rfl ?_
    simp only
    split
    · exact Ends.throw (by simp)
    · refine Ends.change ⟨?_, ?_, ?_⟩
      · rw [he]
      · rw [he]
        exact TypeGraph.size_update _ _ _
      · exact hmakes.known
  have hfollows := addProperty_follows h.toOpening (dispatch_works ctx (n + 1)) name
  refine (hends.and_follows hfollows).imp ?_
  rintro _ e ⟨⟨hmerging, hsize, hknown⟩, hacts, hopening⟩
  exact ⟨hacts, h.add hacts hopening hmerging hsize hknown⟩

/-- The merge of the class is known, and nothing further down is. -/
structure Merging (root : Location) (key : String) (reference : String) (st : Store) (id : NodeId) :
    Prop where
  sound : st.Sound
  has : st.Has id
  read : (st.node id).Read
  content : (st.node id).content = mergeOf reference
  document : (st.node id).location.document = root.document
  reference : Location.ofReference root.document reference = .ok root
  origin : Origin root key st
  known : ∀ other, st.id? other ≠ none → other.depth ≤ (st.node id).location.depth

def Anchors (root : Location) (st : Store) (content : Json) : Prop :=
  ∃ origin, st.id? root = some origin ∧
    (st.node origin).content.anchor root.document = .ok content

theorem Merging.free {reference : String} (h : Merging root key reference d.store id)
    {segments : List String} (hne : segments ≠ []) :
    d.store.id? ((d.store.node id).location.below segments) = none := by
  by_contra hknown
  have hdepth := h.known _ hknown
  rw [Location.depth_below] at hdepth
  have := List.length_pos_iff.mpr hne
  omega

/-- The class was taken in as the only member: nothing is extended, and only the place of the member
became known. -/
structure TakenIn (root : Location) (key : String) (st : Store) (id : NodeId) (all : AllOf)
    (u : Store) : Prop where
  copied : ∃ copied properties, all = ⟨.object copied, false, none⟩ ∧
    Recursive root key copied properties ∧ Anchors root st (.object copied)
  grows : st.Grows u
  known : ∀ other, u.id? other ≠ none →
    other = (st.node id).location.below ["allOf", "0"] ∨ st.id? other ≠ none

theorem TakenIn.free {reference : String} {all : AllOf} {u : Store}
    (h : TakenIn root key d.store id all u) (hmerging : Merging root key reference d.store id) :
    u.id? ((d.store.node id).location.below ["allOf"]) = none := by
  by_contra hsome
  rcases h.known _ hsome with heq | hold
  · have hdepth := congrArg Location.depth heq
    rw [Location.depth_below, Location.depth_below] at hdepth
    simp at hdepth
  · exact hold (hmerging.free (List.cons_ne_nil _ _))

theorem addMember_copies {reference : String} (h : Merging root key reference d.store id)
    (hself : Location.ofReference root.document root.text = .ok root)
    (merge : NodeId → Drafting NodeId) :
    Ends (addMember ctx merge id ⟨.object [], false, none⟩ 0) d fun all e =>
      e = { d with store := e.store } ∧ TakenIn root key d.store id all e.store := by
  obtain ⟨origin, properties, horigin, hplace, hunrolls⟩ := h.origin
  obtain ⟨members, hcontent, hrecursive⟩ := hunrolls.content
  obtain ⟨hplain, hshape⟩ := hunrolls.plain
  have hhas := h.sound.bound horigin
  have hfree := h.free (List.cons_ne_nil "allOf" ["0"])
  have hmember : (d.store.node id).content.descend? ["allOf", "0"] =
      some (.object [("$ref", .string reference)]) := by
    rw [h.content]
    rfl
  have hreference : Location.ofReference (d.store.node id).location.document reference =
      .ok root := by
    rw [h.document]
    exact h.reference
  have hother : (d.store.node origin).location ≠
      (d.store.node id).location.below ["allOf", "0"] := by
    intro heq
    rw [← heq, h.sound.own hhas] at hfree
    cases hfree
  unfold addMember
  have hchild := Store.child_refers ctx.files hfree hmember hreference horigin hother
  refine (inStore_ends hchild).bind ?_
  rintro _ e ⟨he, rfl, hstore⟩
  have hnode : ∀ other, e.store.node other = d.store.node other := by
    rw [hstore]
    exact fun _ => rfl
  refine Ends.after (a := e.store.node origin) rfl ?_
  rw [if_neg (by simp [hnode, hplain.family])]
  simp only [bind_ite]
  rw [if_neg (by rw [hnode, hshape]; decide)]
  refine Ends.after (a := origin) rfl (Ends.after (a := e.store.node origin) rfl ?_)
  refine Ends.bind (P := fun content t => t = e ∧
      (d.store.node origin).content.anchor root.document = .ok content)
    (Ends.lift anchor_ends fun content hanchor => ⟨rfl, ?_⟩) ?_
  · rwa [hnode, hplace] at hanchor
  rintro content _ ⟨rfl, hanchor⟩
  rw [hcontent] at hanchor
  obtain ⟨copied, listed, rfl, hcopied⟩ := hrecursive.anchored hself hanchor
  have hanchors : Anchors root d.store (.object copied) := ⟨origin, horigin, hcontent ▸ hanchor⟩
  refine Ends.pure ⟨he, ⟨copied, listed, ?_, hcopied, hanchors⟩, ?_, fun other hknown => ?_⟩
  · simp only [if_true]
    rw [hcopied.withoutFamily, Json.merge_nothing hcopied.distinct]
  · rw [hstore]
    exact Store.grows_bind hfree hhas
  · rw [hstore, Store.id?_bind] at hknown
    split at hknown
    · rename_i hsame
      exact .inl hsame
    · exact .inr hknown

theorem members_copies {reference : String} (h : Merging root key reference d.store id)
    (hself : Location.ofReference root.document root.text = .ok root)
    (merge : NodeId → Drafting NodeId) :
    Ends ((List.range 1).foldlM (addMember ctx merge id) ⟨.object [], false, none⟩) d fun all e =>
      e = { d with store := e.store } ∧ TakenIn root key d.store id all e.store := by
  rw [show List.range 1 = [0] from rfl, List.foldlM_cons]
  refine (addMember_copies h hself merge).bind fun all e hall => ?_
  rw [List.foldlM_nil]
  exact Ends.pure hall

/-- The schema was made for a merge of the class: it stands below the merge, nothing is known deeper
than a reference beside it, and the rest of the state is as before. -/
structure Copied (root : Location) (key : String) (d : Draft) (id made : NodeId) (e : Draft) :
    Prop where
  rest : e = { d with store := e.store }
  grows : d.store.Grows e.store
  has : e.store.Has made
  location : (e.store.node made).location = (d.store.node id).location.below ["allOf"]
  unrolls : ∃ properties, Unrolls root key (e.store.node made) properties
  anchors : Anchors root d.store (e.store.node made).content
  known : ∀ other, e.store.id? other ≠ none →
    other.depth ≤ (e.store.node made).location.depth + 1

theorem read_mergeOf {schema : SchemaNode} {reference : String} (h : schema.Read)
    (hcontent : schema.content = mergeOf reference) :
    schema.keywords = { allOf := some [.object [("$ref", .string reference)]] } ∧
      schema.shape = .allOf := by
  have hread := h.keywords
  rw [hcontent, keywordsOf_mergeOf] at hread
  have hkeywords := (Except.ok.inj hread).symm
  have hshape := h.shape
  rw [hkeywords] at hshape
  exact ⟨hkeywords, (Except.ok.inj hshape).symm⟩

theorem mergeAllOf_copies {reference : String} (h : Merging root key reference d.store id)
    (hself : Location.ofReference root.document root.text = .ok root) (hmerging : d.merging = []) :
    Ends (mergeAllOf ctx (n + 1) id) d fun made e => Copied root key d id made e := by
  have hkeywords := (read_mergeOf h.read h.content).1
  have hown : ownContent (d.store.node id).content = .object [] := by
    rw [h.content]
    rfl
  unfold mergeAllOf
  refine Ends.after (a := d.store.node id) rfl (Ends.after (a := d) rfl ?_)
  rw [if_neg (by simp [hmerging])]
  simp only [hown, hkeywords]
  refine Ends.bind (P := fun _ e => e = { d with merging := id :: d.merging }) (Ends.change rfl) ?_
  rintro _ _ rfl
  refine Ends.bind (members_copies (d := { d with merging := id :: d.merging }) h hself _) ?_
  rintro all e ⟨he, htaken : TakenIn root key d.store id all e.store⟩
  have hfree := htaken.free h
  obtain ⟨⟨copied, properties, rfl, hcopied, hanchors⟩, hgrows, hknown⟩ := htaken
  refine Ends.bind (P := fun _ t => t = { d with store := e.store }) (Ends.change ?_) ?_
  · rw [he]
    cases d
    cases hmerging
    rfl
  rintro _ _ rfl
  have hempty : (Json.object []).anchor (d.store.node id).location.document =
      .ok (.object []) := rfl
  refine Ends.bind (P := fun own t => own = .object [] ∧ t = { d with store := e.store })
    (Ends.lift anchor_ends fun own hanchor => ⟨?_, rfl⟩) ?_
  · rw [hempty] at hanchor
    exact (Except.ok.inj hanchor).symm
  rintro _ _ ⟨rfl, rfl⟩
  have hmerged : (extended none (.object copied)).merge (.object []) = .object copied := by
    rw [extended, Json.merge, Json.mergeMembers]
  simp only [hmerged]
  refine (inStore_ends (d := { d with store := e.store }) (Store.synthesize_makes ctx.files id
    (fun k hk => (hcopied.reads hk).reference) hfree)).imp ?_
  rintro made t ⟨ht, hmakes⟩
  refine ⟨ht, IsTrans.trans _ _ _ hgrows hmakes.grows, hmakes.has, hmakes.location,
    ⟨properties, hmakes.read, ?_, copied, hmakes.content, hcopied⟩, ?_, fun other hother => ?_⟩
  · rw [hmakes.location, Location.document_below]
    exact h.document
  · rw [hmakes.content]
    exact hanchors
  · rw [hmakes.location, Location.depth_below]
    rcases hmakes.known other hother with rfl | hold
    · rw [Location.depth_below]
      omega
    · rcases hknown other hold with rfl | hold
      · rw [Location.depth_below]
        simp
      · have := h.known other hold
        omega

/-- A copy made below a class, as the generation of its type finds it. -/
structure Descends (root : Location) (key : String) (d : Draft) (made : NodeId) (e : Draft) :
    Prop where
  ready : Ready root key e made
  grows : d.store.Grows e.store
  graph : e.graph = d.graph
  anchors : Anchors root d.store (e.store.node made).content

theorem Anchors.of_grows {st u : Store} {content : Json} (hs : st.Sound) (hg : st.Grows u)
    (horigin : Origin root key st) (h : Anchors root u content) : Anchors root st content := by
  obtain ⟨origin, -, hid, -⟩ := horigin
  obtain ⟨other, hother, hanchor⟩ := h
  have hsame : other = origin := Option.some.inj (hother.symm.trans (hg.index hid))
  subst hsame
  rw [hg.node (hs.bound hid)] at hanchor
  exact ⟨other, hid, hanchor⟩

theorem Unrolling.merging_made {reference : String} {st : Store}
    (h : Unrolling ctx k root key id type done d)
    (hdocument : (d.store.node id).location.document = root.document)
    (hreference : Location.ofReference root.document reference = .ok root)
    (hmakes : d.store.Makes ((d.store.node id).location.below ["properties", key])
      (mergeOf reference) made st) : Merging root key reference st made := by
  refine ⟨hmakes.grows.sound h.consistent.store, hmakes.has, hmakes.read, hmakes.content, ?_,
    hreference, h.origin.grows h.consistent.store hmakes.grows, fun other hother => ?_⟩
  · rw [hmakes.location, Location.document_below]
    exact hdocument
  · rw [hmakes.location, Location.depth_below]
    rcases hmakes.known other hother with rfl | hold
    · rw [Location.depth_below]
    · rcases h.known other hold with hdepth | ⟨name, -, rfl⟩
      · rw [List.length_cons, List.length_singleton]
        omega
      · rw [Location.depth_below]
        exact Nat.le_refl _

theorem Merging.dispatch_copies {reference : String} (h : Merging root key reference d.store id)
    (hself : Location.ofReference root.document root.text = .ok root) (hd : Consistent d)
    (hmerging : d.merging = [])
    (htypes : ∀ type, d.graph.Has type →
      (d.graph.get type).place.depth < (d.store.node id).location.depth)
    (hnext : ∀ made e, Descends root key d made e →
      Ends (dispatch ctx n request made) e fun _ _ => False) :
    Ends (dispatch ctx (n + 1) request id) d fun _ _ => False := by
  obtain ⟨hkeywords, hshape⟩ := read_mergeOf h.read h.content
  have hlibrary : library? (d.store.node id) = none := by
    unfold library?
    rw [hkeywords]
  have huntyped : d.graph.typeAt? (d.store.node id).location = none := by
    refine (TypeGraph.typeAt?_eq_none hd.placed).mpr fun other hother heq => ?_
    have hdepth := htypes other hother
    rw [heq] at hdepth
    exact Nat.lt_irrefl _ hdepth
  have hruns : Ends (shapeRule ctx (n + 1) (dispatch ctx n) .allOf request id) d
      fun _ _ => False := by
    refine Ends.bind (mergeAllOf_copies (n := n) h hself hmerging) fun made e hcopied => ?_
    have hrest := hcopied.rest
    have he : Consistent e := by
      rw [hrest]
      exact (show Move ctx 0 _ _ from .schemas (scans_schemas hcopied.grows)).consistent hd
    refine hnext made e ⟨⟨he, ?_, hcopied.has, h.origin.grows h.sound hcopied.grows,
      hcopied.unrolls, hcopied.known, fun type htype => ?_⟩, hcopied.grows, ?_, hcopied.anchors⟩
    · rw [hrest]
      exact hmerging
    · rw [hrest] at htype ⊢
      rw [hcopied.location, Location.depth_below]
      exact Nat.lt_add_right _ (htypes type htype)
    · rw [hrest]
  intro r t hx
  rw [dispatch, dispatchWith_shape huntyped hlibrary, hshape] at hx
  exact hruns r t hx

theorem addProperty_copy {properties : Json.Members}
    (h : Unrolling ctx (n + 1) root key id type done d)
    (hunrolls : Unrolls root key (d.store.node id) properties)
    (hself : Location.ofReference root.document root.text = .ok root) (hnew : key ∉ done)
    (hnext : ∀ made e, Descends root key d made e →
      Ends (dispatch ctx n ⟨key, .inside type⟩ made) e fun _ _ => False) (required : List String) :
    Ends (addProperty ctx (dispatch ctx (n + 1)) type id required key) d fun _ _ => False := by
  obtain ⟨members, hcontent, hrecursive⟩ := hunrolls.content
  obtain ⟨reference, hmerge, hreference⟩ := hrecursive.self
  unfold addProperty
  refine (inStore_ends (Store.child_makes ctx.files (h.free hnew) (hunrolls.property hmerge)
    fun k hk => ?_)).bind ?_
  · rw [keywordsOf_mergeOf] at hk
    cases hk
    rfl
  rintro found e ⟨he, hby, hmakes⟩
  have hmerging := h.merging_made hunrolls.document hreference hmakes
  refine Ends.after (a := e.store.node found.id) rfl ?_
  refine Ends.after (requestFor_inline hby key _) ?_
  refine Ends.bind (P := fun _ _ => False) ?_ fun _ _ hno => hno.elim
  have he' : Consistent e := by
    rw [he]
    exact (show Move ctx 0 _ _ from .schemas (scans_schemas hmakes.grows)).consistent h.consistent
  refine hmerging.dispatch_copies hself he' ?_ (fun other hother => ?_) fun made t hmade => ?_
  · rw [he]
    exact h.merging
  · rw [he] at hother
    rw [hmakes.location, Location.depth_below, he]
    exact Nat.lt_add_right_iff_pos.mpr (Nat.succ_pos _) |> Nat.lt_of_le_of_lt (h.types other hother)
  · refine hnext made t ⟨hmade.ready, IsTrans.trans _ _ _ hmakes.grows hmade.grows, ?_,
      hmade.anchors.of_grows h.consistent.store hmakes.grows h.origin⟩
    rw [hmade.graph, he]

end Drafting

end SchemaBeans
