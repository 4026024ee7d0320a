import SchemaBeans.Proofs.Generation.Unrolling
import SchemaBeans.Proofs.Store.Calls
import SchemaBeans.Proofs.TypeGraph.Nesting

/-! # Unfolding a class that contains itself

The class is declared, comes to its copy and generates that. The class declared for the copy comes
to its own copy in turn, which asks for a class of the same name inside it or, with a `javaType`,
for the very same name. So generating the class ends in a fault, and it does end. -/
namespace SchemaBeans

open Json (Recursive)

namespace Drafting

variable {ctx : Context} {d e : Draft} {n k : Nat} {id made : NodeId} {type : TypeId}
  {root : Location} {key : String} {request : Request}

/-- The type was declared for the request of a schema with these keywords. -/
structure Answers (ctx : Context) (request : Request) (keywords : Keywords) (g : TypeGraph)
    (type : TypeId) : Prop where
  has : g.Has type
  slot : ∃ before : TypeGraph,
    (g.get type).package = (slot ctx.settings before request keywords).package ∧
    (g.get type).name = (slot ctx.settings before request keywords).name ∧
    (g.get type).enclosing = (slot ctx.settings before request keywords).enclosing

theorem claim_ends {registry : NameRegistry} {name : String} {place : Location} :
    registry.claim name place ≠ .error .endless := by
  unfold NameRegistry.claim
  split
  · simp
  · split <;> simp

theorem checkEnclosing_ends {g : TypeGraph} {slot : Slot} {place : Location} :
    checkEnclosing g slot place ≠ .error .endless := by
  unfold checkEnclosing
  split
  · simp
  · split <;> simp

theorem slot_javaType (settings : Settings) {keywords : Keywords} {javaType : String}
    (h : keywords.javaType = some javaType) (g g' : TypeGraph) (request request' : Request) :
    slot settings g request keywords = slot settings g' request' keywords ∧
      (slot settings g request keywords).enclosing = none := by
  unfold slot
  rw [h]
  dsimp only
  split <;> exact ⟨rfl, rfl⟩

theorem slot_inside (settings : Settings) {keywords : Keywords} (h : keywords.javaType = none)
    (g g' : TypeGraph) (request : Request) (owner : TypeId) :
    (slot settings g ⟨request.name, .inside owner⟩ keywords).enclosing = some owner ∧
      (slot settings g ⟨request.name, .inside owner⟩ keywords).name =
        (slot settings g' request keywords).name := by
  unfold slot
  rw [h]
  dsimp only
  cases request.placement <;> exact ⟨rfl, rfl⟩

theorem checkEnclosing_owner {g : TypeGraph} (hnests : g.Nests) (htype : g.Has type) {slot : Slot}
    (henclosing : slot.enclosing = some type) (hname : (g.get type).name = slot.name)
    (place : Location) : checkEnclosing g slot place ≠ .ok () := by
  unfold checkEnclosing
  rw [henclosing]
  dsimp only
  split
  · rename_i hnone
    have hself := List.find?_eq_none.mp hnone type (TypeGraph.mem_outwards_self hnests htype)
    simp [hname] at hself
  · simp

/-- Inside a type no type is declared for a request of the same name and the same keywords. -/
theorem declare_again (hd : Consistent d) {outer : Request} {kind : TypeKind}
    (huntyped : d.graph.typeAt? (d.store.node id).location = none)
    (h : Answers ctx outer (d.store.node id).keywords d.graph type) :
    Ends (declare ctx ⟨outer.name, .inside type⟩ id kind) d fun _ _ => False := by
  obtain ⟨before, hpackage, hname, henclosing⟩ := h.slot
  have hvacant : d.registry.claim ((slot ctx.settings d.graph ⟨outer.name, .inside type⟩
      (d.store.node id).keywords).qualified d.graph) (d.store.node id).location = .ok .vacant →
      (d.store.node id).keywords.javaType = none := by
    intro hclaim
    by_contra hsome
    obtain ⟨javaType, hjava⟩ := Option.ne_none_iff_exists'.mp hsome
    obtain ⟨hsame, hnone⟩ := slot_javaType ctx.settings hjava before d.graph outer
      ⟨outer.name, .inside type⟩
    rw [hnone] at henclosing
    -- The type has the very name that is asked for.
    have hqualified : (slot ctx.settings d.graph ⟨outer.name, .inside type⟩
        (d.store.node id).keywords).qualified d.graph = d.graph.qualifiedName type := by
      rw [TypeGraph.qualifiedName_topLevel hd.nests h.has henclosing, hpackage, hname, ← hsame,
        Slot.qualified, hnone]
    rw [hqualified, claim_vacant, (hd.named _ type _).mpr ⟨h.has, rfl, rfl⟩] at hclaim
    cases hclaim
  unfold declare
  refine Ends.after (a := d.store.node id) rfl (Ends.after (a := d) rfl ?_)
  refine Ends.after (a := d) rfl ?_
  refine Ends.bind (P := fun claim t => t = d ∧ d.registry.claim
    ((slot ctx.settings d.graph ⟨outer.name, .inside type⟩ (d.store.node id).keywords).qualified
      d.graph) (d.store.node id).location = .ok claim)
    (Ends.lift claim_ends fun claim hclaim => ⟨rfl, hclaim⟩) ?_
  rintro claim t ⟨hsame, hclaim⟩
  subst t
  cases claim with
  | taken other => exact absurd hclaim (not_taken hd huntyped _ other)
  | vacant =>
    refine Ends.bind (P := fun _ _ => False) (Ends.lift checkEnclosing_ends fun _ hchecked => ?_)
      fun _ _ hno => hno.elim
    obtain ⟨hinside, hsame⟩ :=
      slot_inside ctx.settings (hvacant hclaim) d.graph before outer type
    exact checkEnclosing_owner hd.nests h.has hinside (hname.trans hsame.symm) _ hchecked

theorem declare_ends {kind : TypeKind} :
    Ends (declare ctx request id kind) d fun _ _ => True := by
  unfold declare
  refine Ends.after (a := d.store.node id) rfl (Ends.after (a := d) rfl ?_)
  refine Ends.after (a := d) rfl ?_
  refine Ends.bind (P := fun _ _ => True) (Ends.lift claim_ends fun _ _ => trivial) ?_
  rintro claim t -
  cases claim with
  | taken other => exact Ends.pure trivial
  | vacant =>
    refine Ends.bind (P := fun _ _ => True) (Ends.lift checkEnclosing_ends fun _ _ => trivial) ?_
    rintro _ u -
    exact Ends.bind (P := fun _ _ => True) (Ends.change trivial) fun _ _ _ => Ends.pure trivial

theorem Answers.keeps {g g' : TypeGraph} {keywords : Keywords}
    (h : Answers ctx request keywords g type) (hk : g.Keeps g') :
    Answers ctx request keywords g' type := by
  obtain ⟨before, hpackage, hname, henclosing⟩ := h.slot
  refine ⟨hk.has h.has, before, ?_, ?_, ?_⟩
  · rw [hk.package h.has, hpackage]
  · rw [hk.name h.has, hname]
  · rw [hk.enclosing h.has, henclosing]

theorem answers_declared {kind : TypeKind} :
    Answers ctx request (d.store.node id).keywords (declared ctx d request id kind).graph
      ⟨d.graph.size⟩ := by
  have hget := TypeGraph.get_insert_self d.graph
  refine ⟨TypeGraph.has_insert.mpr (.inr rfl), d.graph, ?_, ?_, ?_⟩
  all_goals simp only [declared, hget]

theorem Ready.unrolling (h : Ready root key d id) (hdecl : Declarable ctx d request id .bean) :
    Unrolling ctx k root key id ⟨d.graph.size⟩ [] (declared ctx d request id .bean) := by
  refine ⟨opening_declared h.consistent hdecl, h.merging, h.origin,
    fun other hother => .inl (h.known other hother), fun other hother => ?_⟩
  rcases TypeGraph.has_insert.mp hother with hold | rfl
  · simp only [declared, TypeGraph.get_insert_of_has hold]
    exact Nat.le_of_lt (h.types other hold)
  · simp only [declared, TypeGraph.get_insert_self]
    exact Nat.le_refl _

/-- No class that contains itself is filled, if no type is generated for the copies below it. -/
theorem Unrolling.addProperties {properties : Json.Members}
    (h : Unrolling ctx (n + 1) root key id type [] d)
    (hunrolls : Unrolls root key (d.store.node id) properties)
    (hself : Location.ofReference root.document root.text = .ok root)
    (hnext : ∀ e, Acts ctx type.index d e → ∀ made t, Descends root key e made t →
      Ends (dispatch ctx n ⟨key, .inside type⟩ made) t fun _ _ => False) :
    Ends (properties.forM fun (name, _) => addProperty ctx (dispatch ctx (n + 1)) type id
      (d.store.node id).keywords.requiredKeys name) d fun _ _ => False := by
  obtain ⟨members, hcontent, hrecursive⟩ := hunrolls.content
  have hall := Ends.forM
    (f := fun (member : String × Json) => addProperty ctx (dispatch ctx (n + 1)) type id
      (d.store.node id).keywords.requiredKeys member.1)
    (I := fun rest e => key ∈ rest.map (·.1) ∧ Acts ctx type.index d e ∧
      ∃ done, properties.map (·.1) = done ++ rest.map (·.1) ∧
        Unrolling ctx (n + 1) root key id type done e)
    (fun member rest e ⟨hkey, hacts, done, hdone, he⟩ => by
      have hnode := hacts.retains.grows.node h.node
      have hlist : (done ++ member.1 :: rest.map (·.1)).Nodup := hdone ▸ hrecursive.apart
      have hnew : member.1 ∉ done := fun hmem =>
        (List.nodup_append.mp hlist).2.2 _ hmem _ (List.mem_cons_self ..) rfl
      rw [← hnode] at hunrolls ⊢
      by_cases hname : member.1 = key
      · rw [hname] at hnew ⊢
        exact (addProperty_copy he hunrolls hself hnew (hnext e hacts) _).imp
          fun _ _ hno => hno.elim
      · obtain ⟨v, hv⟩ : ∃ v, properties.lookup member.1 = some v := by
          refine Option.ne_none_iff_exists'.mp fun hnone => ?_
          rw [Json.lookup_eq_none, hdone] at hnone
          simp at hnone
        refine (addProperty_scalar he hunrolls hname hnew hv).imp fun _ t ⟨het, ht⟩ => ?_
        refine ⟨?_, IsTrans.trans _ _ _ hacts het, done ++ [member.1], by simp [hdone], ht⟩
        exact (List.mem_cons.mp hkey).resolve_left (Ne.symm hname))
  refine (hall properties d ⟨?_, refl d, [], rfl, h⟩).imp ?_
  · obtain ⟨reference, hlookup, -⟩ := hrecursive.self
    by_contra hnot
    rw [← Json.lookup_eq_none, hlookup] at hnot
    cases hnot
  · rintro _ e ⟨hkey, -⟩
    cases hkey

theorem Ready.dispatch_fails (h : Ready root key d id)
    (hself : Location.ofReference root.document root.text = .ok root)
    (hfits : request.Fits d.graph)
    (hnext : ∀ type e, d.store.Grows e.store →
      Answers ctx request (d.store.node id).keywords e.graph type →
      ∀ made t, Descends root key e made t →
        Ends (dispatch ctx n ⟨key, .inside type⟩ made) t fun _ _ => False) :
    Ends (dispatch ctx (n + 2) request id) d fun _ _ => False := by
  obtain ⟨properties, hunrolls⟩ := h.unrolls
  obtain ⟨hplain, hshape⟩ := hunrolls.plain
  have hruns : Ends (objectRule ctx (dispatch ctx (n + 1)) request id) d fun _ _ => False := by
    have hdeclare : Follows (Acts ctx 0) (declare ctx request id .bean) d _ :=
      declare_follows h.consistent h.has h.untyped hunrolls.library (.object hshape) hfits
    unfold objectRule
    refine (declare_ends.and_follows hdeclare).bind ?_
    rintro _ _ ⟨-, -, hdecl, rfl, rfl⟩
    refine Ends.bind (P := fun _ _ => False) ?_ fun _ _ hno => hno.elim
    unfold populate
    refine Ends.after (a := d.store.node id) rfl ?_
    simp only [hplain.superclass, hplain.properties, Option.isSome_none, Bool.false_eq_true,
      if_false, Option.getD_some]
    refine Ends.bind (P := fun _ _ => False) ?_ fun _ _ hno => hno.elim
    refine (h.unrolling hdecl).addProperties hunrolls hself fun e hacts made t hmade => ?_
    exact hnext _ e hacts.retains.grows (answers_declared.keeps hacts.keeps) made t hmade
  intro r t hx
  rw [dispatch, dispatchWith_shape h.untyped hunrolls.library, hshape] at hx
  exact hruns r t hx

theorem Anchors.unique {st : Store} {a b : Json} (ha : Anchors root st a) (hb : Anchors root st b) :
    a = b := by
  obtain ⟨origin, hid, hanchor⟩ := ha
  obtain ⟨other, hother, hanchor'⟩ := hb
  rw [hid] at hother
  cases hother
  rw [hanchor] at hanchor'
  exact Except.ok.inj hanchor'

theorem Descends.keywords {d' e' : Draft} {made' : NodeId} (h : Descends root key d made e)
    (h' : Descends root key d' made' e') (hd : d.store.Sound) (horigin : Origin root key d.store)
    (hg : d.store.Grows d'.store) :
    (e.store.node made).keywords = (e'.store.node made').keywords := by
  obtain ⟨properties, hunrolls⟩ := h.ready.unrolls
  obtain ⟨properties', hunrolls'⟩ := h'.ready.unrolls
  have hcontent := h.anchors.unique (h'.anchors.of_grows hd hg horigin)
  have hread := hunrolls.read.keywords
  rw [hcontent] at hread
  exact Except.ok.inj ((Library.keywordsOf_anywhere hread _).symm.trans hunrolls'.read.keywords)

theorem Ready.dispatch_again (h : Ready root key d id) (outer : Request)
    (hanswers : Answers ctx outer (d.store.node id).keywords d.graph type) :
    Ends (dispatch ctx (n + 1) ⟨outer.name, .inside type⟩ id) d fun _ _ => False := by
  obtain ⟨properties, hunrolls⟩ := h.unrolls
  have hruns : Ends (objectRule ctx (dispatch ctx n) ⟨outer.name, .inside type⟩ id) d
      fun _ _ => False :=
    (declare_again h.consistent h.untyped hanswers).bind fun _ _ hno => hno.elim
  intro r t hx
  rw [dispatch, dispatchWith_shape h.untyped hunrolls.library, hunrolls.plain.2] at hx
  exact hruns r t hx

/-- The class, its copy and the copy of the copy are generated inside one another, and there it
ends. -/
theorem Ready.fails (h : Ready root key d id)
    (hself : Location.ofReference root.document root.text = .ok root)
    (hfits : request.Fits d.graph) :
    Ends (dispatch ctx (n + 5) request id) d fun _ _ => False := by
  refine h.dispatch_fails hself hfits fun type e hg hanswers made t hmade => ?_
  have hsound := hg.sound h.consistent.store
  have horigin := h.origin.grows h.consistent.store hg
  have hfits : (⟨key, .inside type⟩ : Request).Fits t.graph := by
    rw [hmade.graph]
    intro owner howner
    cases howner
    exact hanswers.has
  refine hmade.ready.dispatch_fails hself hfits fun type' e' hg' hanswers' made' t' hmade' => ?_
  refine hmade'.ready.dispatch_again ⟨key, .inside type⟩ ?_
  rw [hmade'.graph, ← hmade.keywords hmade' hsound horigin (IsTrans.trans _ _ _ hmade.grows hg')]
  exact hanswers'

theorem generate_fails {documents : List (String × Json)} {document : Json}
    {members properties : Json.Members} (hrecursive : Recursive root key members properties)
    (hdocument : documents.lookup root.document = some document)
    (hcontent : document.lookup? root.pointer = some (.object members))
    (hself : Location.ofReference root.document root.text = .ok root) :
    Ends (generate ctx root) { store := { documents := documents } } fun _ _ => False := by
  let start : Draft := { store := { documents := documents } }
  have hgrows : (({} : Store)).Grows start.store :=
    ⟨List.nil_suffix, List.prefix_rfl, fun h => h, fun _ => Store.sound_of_empty rfl rfl⟩
  have hstart : Consistent start :=
    (show Move ctx 0 {} start from .schemas (scans_schemas hgrows)).consistent consistent_empty
  unfold generate
  refine (inStore_ends (d := start) (Store.resolve_makes ctx.files rfl hdocument hcontent
    fun k hk => (hrecursive.reads hk).reference)).bind ?_
  rintro id e ⟨he, hmakes⟩
  refine Ends.after (a := e.store.node id) rfl (Ends.after (a := e) rfl ?_)
  have hconsistent : Consistent e := by
    rw [he]
    exact (show Move ctx 0 start _ from .schemas (scans_schemas hmakes.grows)).consistent hstart
  have hunrolls : Unrolls root key (e.store.node id) properties :=
    ⟨hmakes.read, by rw [hmakes.location], members, hmakes.content, hrecursive⟩
  have hid : e.store.id? root = some id := by
    rw [← hmakes.location]
    exact hconsistent.store.own hmakes.has
  have hready : Ready root key e id := by
    refine ⟨hconsistent, by rw [he], hmakes.has, ⟨id, properties, hid, hmakes.location, hunrolls⟩,
      ⟨properties, hunrolls⟩, fun other hother => ?_, fun type htype => ?_⟩
    · rcases hmakes.known other hother with rfl | hold
      · rw [hmakes.location]
        exact Nat.le_succ _
      · exact absurd rfl hold
    · rw [he] at htype
      exact absurd htype (Nat.not_lt_zero _)
  obtain ⟨n, hn⟩ : ∃ n, depth ctx e = n + 5 := by
    have hsize : 0 < e.store.nodes.size := Nat.lt_of_le_of_lt (Nat.zero_le _) hmakes.has
    have hplaces : 3 * 3 ≤ depth ctx e := Nat.mul_le_mul (by omega) (by omega)
    exact ⟨depth ctx e - 5, by omega⟩
  rw [hn]
  exact hready.fails hself fun owner howner => by cases howner

end Drafting

end SchemaBeans
