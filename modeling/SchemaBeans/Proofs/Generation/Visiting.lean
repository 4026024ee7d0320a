import SchemaBeans.Proofs.Discriminator.Children
import SchemaBeans.Proofs.Generation.Members
import SchemaBeans.Proofs.Generation.Termination
import SchemaBeans.Proofs.Generation.Unfolding
import SchemaBeans.Proofs.Store.Regions
import SchemaBeans.Proofs.Store.Transparency

/-! # Visiting schemas in documents

As long as nothing is merged, every schema that a run comes to stands in a document, and a store
that is faithful to the documents stays so. A class calls for schemas of a closed region if it
stands in it, and it comes to an end if these calls do. -/
namespace SchemaBeans.Drafting

open Library (Closed Covers Inner)

variable {ctx : Context} {lib : Library} {region : Location → Prop} {rule : Rule} {d e : Draft}
  {id : NodeId} {type : TypeId} {request : Request}

/-- A step that keeps what there is, and the store faithful to the documents. -/
structure Onward (ctx : Context) (lib : Library) (d e : Draft) : Prop where
  grows : d.store.Grows e.store
  keeps : d.graph.Keeps e.graph
  stays : Store.Stays ctx.files lib d.store e.store

instance : IsPreorder Draft (Onward ctx lib) where
  refl d := ⟨refl d.store, .refl _, fun h => h⟩
  trans _ _ _ h k := ⟨IsTrans.trans _ _ _ h.grows k.grows, h.keeps.trans k.keeps, k.stays ∘ h.stays⟩

theorem Onward.typed (h : Onward ctx lib d e) {place : Location}
    (hplace : (d.graph.typeAt? place).isSome = true) :
    (e.graph.typeAt? place).isSome = true := h.keeps.isSome_typeAt? hplace

theorem onward_graph {g : TypeGraph} (hk : d.graph.Keeps g) :
    Onward ctx lib d { d with graph := g } := ⟨refl d.store, hk, fun h => h⟩

/-- The region covers the place of the schema, which stands in a document. -/
structure Visits (ctx : Context) (lib : Library) (region : Location → Prop) (d : Draft)
    (id : NodeId) : Prop where
  faithful : d.store.Faithful ctx.files lib
  has : d.store.Has id
  covered : lib.Covers region (d.store.node id).location

theorem Visits.after (h : Visits ctx lib region d id) (hde : Onward ctx lib d e) :
    Visits ctx lib region e id := by
  refine ⟨hde.stays h.faithful, hde.grows.has h.has, ?_⟩
  rw [hde.grows.node h.has]
  exact h.covered

theorem Visits.contains (h : Visits ctx lib region d id) :
    lib.Contains (d.store.node id).location (d.store.node id).content :=
  h.faithful.contents id h.has

theorem Visits.read (h : Visits ctx lib region d id) :
    Store.keywordsOf (d.store.node id).location (d.store.node id).content =
      .ok (d.store.node id).keywords := (h.faithful.read id h.has).keywords

theorem inStore_completes {α : Type} {action : Store.Action α} {Q : α → Store → Prop}
    (hends : Ends action d.store fun _ _ => True)
    (hstays : Follows (Store.Stays ctx.files lib) action d.store fun _ _ => True)
    (hgrows : Follows Store.Grows action d.store Q) :
    Completes (Onward ctx lib) (inStore action) d fun a e => Q a e.store where
  ends := (inStore_ends hends).imp fun _ _ _ => trivial
  follows := by
    intro r e hx hr
    rw [run_inStore] at hx
    cases hx
    obtain ⟨hg, hQ⟩ := hgrows _ _ rfl hr
    exact ⟨⟨hg, .refl _, (hstays _ _ rfl hr).1⟩, hQ⟩

theorem visits_of_known (hclosed : lib.Closed region) (he : e.store.Faithful ctx.files lib)
    {place : Location} (hid : e.store.id? place = some id) (hplace : lib.Covers region place) :
    Visits ctx lib region e id :=
  ⟨he, he.bound hid, hclosed.leads hplace (he.leads place id hid)⟩

section Closed

variable (hclosed : lib.Closed region)

include hclosed

theorem child_visits (h : Visits ctx lib region d id) {segments : List String}
    (hsegments : Inner segments) :
    Completes (Onward ctx lib) (child ctx id segments) d fun found e =>
      e.store.Found id segments found ∧ Visits ctx lib region e found.id := by
  refine (inStore_completes (Store.child_ends ctx.files d.store id segments)
    (Store.child_stays h.faithful h.has segments)
    (Store.child_grows segments h.faithful.toSound h.has)).imp fun found e hde hfound => ?_
  refine ⟨hfound, visits_of_known hclosed (hde.stays h.faithful) hfound.known ?_⟩
  rw [hde.grows.node h.has]
  exact hclosed.inside h.covered h.contains h.read hsegments

theorem reference_visits (h : Visits ctx lib region d id) {metadata : Json} {text : String}
    (hfamily : (d.store.node id).keywords.family = some metadata) (htext : metadata.Holds text) :
    Completes (Onward ctx lib) (inStore (Store.resolveReference ctx.files id text)) d
      fun target e => Visits ctx lib region e target := by
  have hends : Ends (Store.resolveReference ctx.files id text) d.store fun _ _ => True :=
    Ends.after (a := d.store) rfl (.bind (P := fun _ _ => True)
      (.lift Store.ofReference_ends fun _ _ => trivial)
      fun target t _ => Store.resolve_ends ctx.files t target)
  have hstays : Follows (Store.Stays ctx.files lib) (Store.resolveReference ctx.files id text)
      d.store fun _ _ => True :=
    Follows.after (a := d.store) rfl
      (Follows.lift_bind fun target _ => Store.resolve_stays h.faithful target)
  refine (inStore_completes hends hstays
    (Store.resolveReference_known id text h.faithful.toSound)).imp fun target e hde hknown => ?_
  obtain ⟨place, hplace, hid⟩ := hknown
  exact visits_of_known hclosed (hde.stays h.faithful) hid
    (hclosed.names h.contains h.read hfamily htext hplace)

end Closed

/-- The rule comes to an end for every schema that the region covers, from this state on. -/
def Handles (ctx : Context) (lib : Library) (region : Location → Prop) (rule : Rule) (d : Draft) :
    Prop :=
  ∀ e request id, Onward ctx lib d e → Visits ctx lib region e id →
    Completes (Onward ctx lib) (rule request id) e fun _ _ => True

theorem Handles.after (h : Handles ctx lib region rule d) (hde : Onward ctx lib d e) :
    Handles ctx lib region rule e :=
  fun t request id het ht => h t request id (IsTrans.trans _ _ _ hde het) ht

theorem Handles.generate (h : Handles ctx lib region rule d) {found : Store.Child}
    (hfound : Visits ctx lib region d found.id) (name : String) (placement : Placement) :
    Completes (Onward ctx lib)
      (requestFor found name placement >>= fun request => rule request found.id) d
      fun _ _ => True := by
  obtain ⟨request, hrequest⟩ := requestFor_repeats (d := d) found name placement
  exact .after hrequest (h d request found.id (refl d) hfound)

theorem update_completes {change : TypeDecl → TypeDecl} (hhead : ∀ t, (change t).head = t.head)
    (hnested : ∀ t, (change t).nested = t.nested) :
    Completes (Onward ctx lib) (update type change) d fun _ _ => True :=
  .change (onward_graph (TypeGraph.keeps_update _ _ hhead hnested)) trivial

section Filling

variable (hclosed : lib.Closed region)

include hclosed

theorem attachSuperclass_completes (hrule : Handles ctx lib region rule d)
    (h : Visits ctx lib region d id) (name : String) :
    Completes (Onward ctx lib) (attachSuperclass ctx rule type id name) d fun _ _ => True := by
  unfold attachSuperclass
  refine (child_visits hclosed h (.keyword "extends")).bind fun parent e hde ⟨_, hparent⟩ => ?_
  have hcall := (hrule.after hde).generate hparent (name ++ "Parent") .topLevel
  rw [← bind_assoc]
  refine hcall.bind fun supertype t _ _ => Completes.after (a := t.store.node id) rfl ?_
  have hset : Completes (Onward ctx lib)
      (update type fun d => { d with supertype := some supertype }) t fun _ _ => True :=
    update_completes (fun _ => rfl) fun _ => rfl
  cases supertype with
  | generated parentType =>
    exact Completes.after (a := t) rfl (.check (by simp) (.check (by simp) hset))
  | library name => exact hset
  | _ => exact .throw_bind (by simp)

theorem addProperty_completes (hrule : Handles ctx lib region rule d)
    (h : Visits ctx lib region d id) (required : List String) (key : String) :
    Completes (Onward ctx lib) (addProperty ctx rule type id required key) d fun _ _ => True := by
  unfold addProperty
  refine (child_visits hclosed h (.property key)).bind fun found e hde ⟨_, hfound⟩ => ?_
  refine Completes.after (a := e.store.node found.id) rfl ?_
  have hcall := (hrule.after hde).generate hfound key (.inside type)
  rw [← bind_assoc]
  refine hcall.bind fun fieldType t _ _ => Completes.after (a := t.graph.get type) rfl ?_
  dsimp only
  split
  · exact .throw (by simp)
  · exact update_completes (fun _ => rfl) fun _ => rfl

theorem attachAdditionalProperties_completes (hrule : Handles ctx lib region rule d)
    (h : Visits ctx lib region d id) (name : String) (allowed : Option Json) :
    Completes (Onward ctx lib) (attachAdditionalProperties ctx rule type id name allowed) d
      fun _ _ => True := by
  have hset : ∀ (e : Draft) (value : TypeRef), Completes (Onward ctx lib)
      (update type fun t => { t with additionalProperties := some value }) e fun _ _ => True :=
    fun _ _ => update_completes (fun _ => rfl) fun _ => rfl
  unfold attachAdditionalProperties
  by_cases henabled : ctx.settings.additionalPropertiesEnabled = false
  · rw [if_pos henabled]
    exact .pure trivial
  rw [if_neg henabled]
  dsimp only
  split
  · exact .pure trivial
  · exact hset d .any
  · exact hset d .any
  · exact hset d .any
  · refine (child_visits hclosed h (.keyword "additionalProperties")).bind
      fun found e hde ⟨_, hfound⟩ => ?_
    have hcall := (hrule.after hde).generate hfound (name ++ "Property") (.inside type)
    rw [← bind_assoc]
    exact hcall.bind fun value t _ _ => hset t value

theorem familyChild_completes (hrule : Handles ctx lib region rule d)
    (h : Visits ctx lib region d id) {metadata : Json} {discriminator : Discriminator}
    {declaration : ChildDeclaration} (hfamily : (d.store.node id).keywords.family = some metadata)
    (hread : Discriminator.ofJson ctx.settings.defaultDiscriminatorId metadata = .ok discriminator)
    (hchild : declaration ∈ discriminator.children) :
    Completes (Onward ctx lib) (familyChild ctx rule id declaration) d fun _ _ => True := by
  rcases declaration with ⟨text | name, tag⟩
  · have htext := Discriminator.reference_holds hread hchild
    refine (reference_visits hclosed h hfamily htext).bind fun target e hde htarget => ?_
    refine Completes.after (a := e.store.node target) rfl ?_
    refine (hrule e ⟨(e.store.node target).location.name, .topLevel⟩ target hde htarget).bind ?_
    exact fun _ _ _ _ => .pure trivial
  · exact .pure trivial

theorem declareFamily_completes (hrule : Handles ctx lib region rule d)
    (h : Visits ctx lib region d id) {metadata : Json}
    (hfamily : (d.store.node id).keywords.family = some metadata) :
    Completes (Onward ctx lib) (declareFamily ctx rule type id metadata) d fun _ _ => True := by
  unfold declareFamily
  refine Completes.after (a := d.store.node id) rfl ?_
  dsimp only
  split
  · exact .throw (by simp)
  · rename_i discriminator hread
    have hchildren := Completes.mapM (R := Onward ctx lib) (f := familyChild ctx rule id)
      (I := fun e => Onward ctx lib d e) discriminator.children
      (fun declaration hchild e hde => by
        have hnode := hde.grows.node h.has
        refine (familyChild_completes hclosed (hrule.after hde) (h.after hde)
          (by rw [hnode, hfamily]) hread hchild).imp fun _ t het _ => IsTrans.trans _ _ _ hde het)
    exact (hchildren d (refl d)).bind fun children e _ _ =>
      .change ⟨refl e.store, .refl _, fun h => h⟩ trivial

theorem populate_completes (hrule : Handles ctx lib region rule d)
    (h : Visits ctx lib region d id) (name : String) :
    Completes (Onward ctx lib) (populate ctx rule type id name) d fun _ _ => True := by
  have hmembers : ∀ e, Onward ctx lib d e →
      Completes (Onward ctx lib)
        (populateMembers ctx rule type id name (d.store.node id).keywords) e fun _ _ => True := by
    intro e hde
    unfold populateMembers
    have hproperties := Completes.forM (R := Onward ctx lib)
      (f := fun (member : String × Json) =>
        addProperty ctx rule type id (d.store.node id).keywords.requiredKeys member.1)
      (I := fun t => Onward ctx lib d t) ((d.store.node id).keywords.properties.getD [])
      (fun member _ t hdt => (addProperty_completes hclosed (hrule.after hdt) (h.after hdt) _ _).imp
        fun _ u htu _ => IsTrans.trans _ _ _ hdt htu)
    refine (hproperties e hde).bind fun _ t _ hdt => ?_
    refine (attachAdditionalProperties_completes hclosed (hrule.after hdt) (h.after hdt) _ _).bind
      fun _ u htu _ => ?_
    have hdu : Onward ctx lib d u := IsTrans.trans _ _ _ hdt htu
    split
    · rename_i metadata hfamily
      refine declareFamily_completes hclosed (hrule.after hdu) (h.after hdu) ?_
      rw [hdu.grows.node h.has, hfamily]
    · exact .pure trivial
  unfold populate
  refine Completes.after (a := d.store.node id) rfl ?_
  by_cases hsuper : (d.store.node id).keywords.superclass.isSome = true
  · rw [if_pos hsuper]
    exact (attachSuperclass_completes hclosed hrule h name).bind fun _ e hde _ => hmembers e hde
  · rw [if_neg hsuper]
    exact hmembers d (refl d)

end Filling

theorem declare_completes (request : Request) (id : NodeId) (kind : TypeKind) :
    Completes (Onward ctx lib) (declare ctx request id kind) d fun made e =>
      ∀ type, made = .created type →
        (e.graph.typeAt? (d.store.node id).location).isSome = true := by
  unfold declare
  refine Completes.after (a := d.store.node id) rfl (Completes.after (a := d) rfl ?_)
  refine Completes.after (a := d) rfl (Completes.lift_bind claim_ends fun claim _ => ?_)
  cases claim with
  | taken other => exact .pure fun _ hmade => by cases hmade
  | vacant =>
    refine Completes.lift_bind checkEnclosing_ends fun _ _ => ?_
    refine Completes.bind (P := fun _ e => e = declared ctx d request id kind)
      (.change ⟨refl d.store, TypeGraph.keeps_insert _ _, fun h => h⟩ rfl) ?_
    rintro _ _ - rfl
    refine .pure fun type _ => ?_
    simp only [declared, TypeGraph.typeAt?_insert, if_true, Option.isSome_some]

theorem enumRule_completes (request : Request) (id : NodeId) :
    Completes (Onward ctx lib) (enumRule ctx request id) d fun _ _ => True := by
  unfold enumRule
  refine (declare_completes request id .enum).bind fun made e _ _ => ?_
  cases made with
  | existing other => exact .pure trivial
  | created type =>
    refine Completes.after (a := e.store.node id) rfl ?_
    dsimp only
    split
    · exact .throw (by simp)
    · refine Completes.bind (P := fun _ _ => True) ?_ fun _ _ _ _ => .pure trivial
      exact update_completes (fun _ => rfl) fun _ => rfl

/-- A class comes to an end if the calls after its declaration do. -/
theorem objectRule_completes (hclosed : lib.Closed region) (h : Visits ctx lib region d id)
    (hrule : ∀ e, Onward ctx lib d e →
      (e.graph.typeAt? (d.store.node id).location).isSome = true →
        Handles ctx lib region rule e) (request : Request) :
    Completes (Onward ctx lib) (objectRule ctx rule request id) d fun _ _ => True := by
  unfold objectRule
  refine (declare_completes request id .bean).bind fun made e hde hmade => ?_
  cases made with
  | existing other => exact .pure trivial
  | created type =>
    refine (populate_completes hclosed (hrule e hde (hmade type rfl)) (h.after hde) _).bind ?_
    exact fun _ _ _ _ => .pure trivial

/-- An array comes to an end if the call for its items does. -/
theorem arrayRule_completes (hclosed : lib.Closed region) (h : Visits ctx lib region d id)
    (hrule : ∀ e found request, Onward ctx lib d e → Visits ctx lib region e found.id →
      untypedItems (e.store.node id).keywords = false → e.store.Found id ["items"] found →
        Completes (Onward ctx lib) (rule request found.id) e fun _ _ => True)
    (request : Request) :
    Completes (Onward ctx lib) (arrayRule ctx rule request id) d fun _ _ => True := by
  unfold arrayRule
  refine Completes.after (a := d.store.node id) rfl ?_
  dsimp only
  split
  · exact .after (Repeats.pure d _) (.pure trivial)
  · exact .after (Repeats.pure d _) (.pure trivial)
  · rename_i items hnot hitems
    have htyped : untypedItems (d.store.node id).keywords = false := by
      cases items with
      | array elements => exact absurd rfl (hnot elements)
      | _ => simp only [untypedItems, hitems]
    refine (child_visits hclosed h (.keyword "items")).bind ?_
    rintro found e hde ⟨hfound, hvisits⟩
    obtain ⟨inner, hinner⟩ :=
      requestFor_repeats (d := e) found (Names.singularize request.name) request.placement
    rw [← hde.grows.node h.has] at htyped
    refine Completes.after hinner ?_
    exact (hrule e found inner hde hvisits htyped hfound).bind fun _ _ _ _ => .pure trivial

end SchemaBeans.Drafting
