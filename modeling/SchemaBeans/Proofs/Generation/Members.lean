import SchemaBeans.Proofs.Generation.Filling

/-! # Filling a class

What a class extends, its properties, its extension map and its family are generated one after the
other. Each of them leaves the class with the properties it had, but for one more where a property
is added. -/
namespace SchemaBeans.Drafting

variable {ctx : Context} {rule : Rule} {d e : Draft} {k base lo : Nat} {id : NodeId} {type : TypeId}

theorem target?_primitiveType (settings : Settings) (keywords : Keywords) (p : Primitive) :
    (primitiveType settings keywords p).target? = none := by
  cases p with
  | string =>
    simp only [primitiveType, stringType]
    split
    · unfold formatType
      split <;> rfl
    · rfl
  | number =>
    simp only [primitiveType, numberType]
    split <;> rfl
  | _ => rfl

theorem Settles.valid (hd : d.graph.Placed) : ∀ {k : Nat} {id : NodeId} {t : TypeRef},
    Settles ctx d k id t → t.Valid d.graph := by
  intro k
  induction k with
  | zero => exact fun h => h.elim
  | succ k ih =>
    intro id t h
    cases h with
    | typed htype =>
      intro other hother
      cases hother
      exact (TypeGraph.typeAt?_some hd htype).1
    | allOf _ _ _ hbelow => exact ih hbelow
    | @union found shapes types _ _ _ _ hbelow =>
      cases hbelow with
      | nil =>
        intro other hother
        cases hother
      | cons hfirst _ =>
        simp only [commonType]
        split
        · exact ih hfirst
        · intro other hother
          cases hother
    | @items found element _ _ _ _ hbelow =>
      intro other hother
      refine ih hbelow other ?_
      unfold collection at hother
      split at hother <;> exact hother
    | untyped =>
      intro other hother
      unfold collection at hother
      split at hother <;> cases hother
    | primitive =>
      intro other hother
      rw [target?_primitiveType] at hother
      cases hother
    | _ =>
      intro other hother
      cases hother

theorem requestFor_fits (found : Store.Child) (name : String) {placement : Placement}
    (hplacement : ∀ owner, placement = .inside owner → d.graph.Has owner) :
    ∃ request, Repeats (requestFor found name placement) d request ∧ request.Fits d.graph := by
  unfold requestFor
  by_cases h : found.byReference = true
  · rw [if_pos h]
    refine ⟨_, Repeats.bind (a := d.store.node found.id) rfl (Repeats.pure d _), fun owner ho => ?_⟩
    cases ho
  · rw [if_neg h]
    exact ⟨_, Repeats.pure d _, hplacement⟩

/-- A call leaves a steady state steady and reaches into no type there is. -/
theorem Steady.call (h : Steady ctx k lo d) (hrule : Works ctx k rule) (hid : d.store.Has id)
    {request : Request} (hfits : request.Fits d.graph) (hbase : base ≤ d.graph.size) :
    Follows (Acts ctx base) (rule request id) d
      (fun t e => Acts ctx d.graph.size d e ∧ Steady ctx k lo e ∧ Settles ctx e k id t) := by
  refine Follows.along (S := Acts ctx d.graph.size) ?_ fun e hl => hl.lower hbase
  refine (hrule d request id h.consistent hid hfits).imp fun t e hl ⟨ht, hbuilt⟩ => ?_
  refine ⟨hl, ⟨hl.consistent h.consistent, ?_, Nat.le_trans h.bounded hl.keeps.size_le⟩, ht⟩
  exact h.built.after h.consistent.store hl hbuilt

theorem Steady.generate (h : Steady ctx k lo d) (hrule : Works ctx k rule) {found : Store.Child}
    (hfound : d.store.Has found.id) (name : String) {placement : Placement}
    (hplacement : ∀ owner, placement = .inside owner → d.graph.Has owner)
    (hbase : base ≤ d.graph.size) :
    Follows (Acts ctx base)
      (requestFor found name placement >>= fun request => rule request found.id) d
      (fun t e => Acts ctx d.graph.size d e ∧ Steady ctx k lo e ∧ Settles ctx e k found.id t) := by
  obtain ⟨request, hrequest, hfits⟩ := requestFor_fits found name hplacement
  exact Follows.after hrequest (h.call hrule hfound hfits hbase)

theorem Steady.child (h : Steady ctx k lo d) (hid : d.store.Has id) (segments : List String) :
    Follows (Acts ctx base) (child ctx id segments) d
      (fun found e => Scans d e ∧ Steady ctx k lo e ∧ e.store.Found id segments found) := by
  refine Follows.along (S := Scans) ?_ fun e hs => .single (act_schemas hs)
  refine (child_follows ctx segments h.consistent.store hid fun _ hg => scans_schemas hg).imp ?_
  exact fun found e hs ⟨_, hfound⟩ => ⟨hs, h.scans hs, hfound⟩

section Opening

variable {keys keys' : List String}

theorem Opening.updated (h : Opening ctx k id type keys d) {change : TypeDecl → TypeDecl}
    (ha : Act ctx type.index d (updated d type change))
    (hpopulated : Populated ctx (updated d type change) k id keys'
      (change (d.graph.get type)).properties) :
    Opening ctx k id type keys' (Drafting.updated d type change) := by
  have hself : (Drafting.updated d type change).graph.get type = change (d.graph.get type) :=
    TypeGraph.get_update_self h.has change
  refine ⟨h.acts ha (TypeGraph.size_update _ _ _) (fun other hne => ?_) ?_, h.unclaimed⟩
  · exact congrArg TypeDecl.body (TypeGraph.get_update_ne hne change)
  · rw [hself]
    exact hpopulated

theorem Opening.update (h : Opening ctx k id type keys d) {change : TypeDecl → TypeDecl}
    (ha : Act ctx type.index d (Drafting.updated d type change))
    (hpopulated : Populated ctx (Drafting.updated d type change) k id keys'
      (change (d.graph.get type)).properties) :
    Follows (Acts ctx type.index) (update type change) d
      (fun _ e => e = Drafting.updated d type change ∧ Opening ctx k id type keys' e) :=
  Follows.change (.single ha) ⟨rfl, h.updated ha hpopulated⟩

theorem Opening.update_rest (h : Opening ctx k id type keys d) {change : TypeDecl → TypeDecl}
    (ha : Act ctx type.index d (Drafting.updated d type change))
    (hrest : ∀ t, (change t).properties = t.properties) :
    Follows (Acts ctx type.index) (Drafting.update type change) d
      (fun _ e => e = Drafting.updated d type change ∧ Opening ctx k id type keys e) := by
  refine h.update ha ?_
  rw [hrest]
  exact h.populated.keeps h.consistent.store h.node ha.move.retains (Nat.le_refl k)

end Opening

/-- What a class extends is known after that schema was generated. Until then nothing but links gave
the class a superclass, so the one that is replaced lists it. -/
theorem attachSuperclass_follows {keys : List String} (h : Opening ctx k id type keys d)
    (hloose : d.graph.Loose type) (hsuper : (d.store.node id).keywords.superclass.isSome = true)
    (hrule : Works ctx k rule) (name : String) :
    Follows (Acts ctx type.index) (attachSuperclass ctx rule type id name) d
      (fun _ e => Opening ctx k id type keys e ∧
        PlaceSettled ctx e k ((d.store.node id).location.below ["extends"])) := by
  unfold attachSuperclass
  refine (h.toSteady.child h.node _).bind fun parent e hde ⟨hscans, hsteady, hfound⟩ => ?_
  have he := h.after (.single (act_schemas hscans)) hsteady
  rw [← hscans.graph] at hloose
  rw [← hscans.grows.node h.node] at hsuper
  refine Follows.seq (hsteady.generate hrule (hfound.has he.consistent.store) _
    (fun _ h => by cases h) (Nat.le_of_lt he.has)) fun supertype t het ⟨hl, hsteady, ht⟩ => ?_
  have hopening := he.after hl hsteady
  refine Follows.after (a := t.store.node id) rfl ?_
  have hstated : Stated ctx t type supertype := by
    refine ⟨id, parent, k, ?_, ?_, hfound.grows he.consistent.store he.node hl.retains.grows, ht⟩
    · rw [hopening.place]
      exact hopening.consistent.store.own hopening.node
    · rw [hl.retains.grows.node he.node]
      exact hsuper
  have hsettled : PlaceSettled ctx t k ((d.store.node id).location.below ["extends"]) := by
    rw [← hscans.grows.node h.node]
    exact ⟨_, _, hl.retains.grows.index hfound.known, ht⟩
  have hset : Extendable t.graph type supertype →
      Follows (Acts ctx type.index) (update type fun d => { d with supertype := some supertype }) t
        (fun _ u => Opening ctx k id type keys u ∧
          PlaceSettled ctx u k ((d.store.node id).location.below ["extends"])) :=
    fun h => (hopening.update_rest (act_extend hopening.consistent.store (Nat.le_refl _) h
      (hl.loose he.has hloose) hstated) fun _ => rfl).imp fun _ _ htu h =>
        ⟨h.2, hsettled.keeps hopening.consistent.store htu.retains (Nat.le_refl k)⟩
  cases supertype with
  | generated parentType =>
    refine Follows.after (a := t) rfl ?_
    simp only
    by_cases hkind : (t.graph.get parentType).kind = .bean
    · rw [if_neg (not_not.mpr hkind)]
      by_cases hfree : t.graph.inherits parentType type = true
      · rw [if_pos hfree]
        exact Follows.throw_bind
      · rw [if_neg hfree]
        rw [Bool.not_eq_true] at hfree
        exact hset (.generated (ht.valid hopening.consistent.placed _ rfl) hkind hfree)
    · rw [if_pos hkind]
      exact Follows.throw_bind
  | library libraryName => exact hset (.library libraryName)
  | _ => exact Follows.throw_bind

theorem property?_eq_none {decl : TypeDecl} {name : String} :
    decl.property? name = none ↔ name ∉ decl.properties.map (·.name) := by
  unfold TypeDecl.property?
  rw [List.find?_eq_none]
  simp

theorem addProperty_follows {keys : List String} (h : Opening ctx k id type keys d)
    (hrule : Works ctx k rule) (key : String) :
    Follows (Acts ctx type.index)
      (addProperty ctx rule type id (d.store.node id).keywords.requiredKeys key) d
      (fun _ e => Opening ctx k id type (keys ++ [key]) e) := by
  unfold addProperty
  refine (h.toSteady.child h.node _).bind fun found e hde ⟨hscans, hsteady, hfound⟩ => ?_
  have he := h.after (.single (act_schemas hscans)) hsteady
  have hhas := hfound.has he.consistent.store
  refine Follows.after (a := e.store.node found.id) rfl ?_
  refine Follows.seq (hsteady.generate hrule hhas _ (fun owner ho => by cases ho; exact he.has)
    (Nat.le_of_lt he.has)) fun fieldType t het ⟨hl, hsteady, ht⟩ => ?_
  have hopening := he.after hl hsteady
  refine Follows.after (a := t.graph.get type) rfl ?_
  simp only
  split
  · exact Follows.throw
  · rename_i hnew
    let property := propertyOf ctx.settings (d.store.node id).keywords.requiredKeys key
      (e.store.node found.id).keywords fieldType
    have hname : (t.graph.get type).property? property.name = none := by
      rw [propertyOf_name]
      exact hnew
    have hvalid : property.type.Valid t.graph := by
      rw [propertyOf_type]
      exact ht.valid hopening.consistent.placed
    have ha : Act ctx type.index t
        (updated t type fun decl => { decl with properties := decl.properties ++ [property] }) :=
      act_update (.property (Nat.le_refl _) hname hvalid) fun _ => rfl
    have hdescribes : Describes ctx t k id key property := by
      refine ⟨found, hfound.grows he.consistent.store he.node hl.retains.grows, ?_, ?_⟩
      · rw [hl.retains.grows.node hhas, hl.retains.grows.node he.node, hscans.grows.node h.node,
          propertyOf_type]
      · rw [propertyOf_type]
        exact ht
    have hpopulated := hopening.populated.snoc hdescribes (property?_eq_none.mp hname)
    refine (hopening.update ha (hpopulated.keeps hopening.consistent.store hopening.node
      ha.move.retains (Nat.le_refl k))).imp fun _ _ _ hdone => hdone.2

/-- The values of the extension map are settled if they have a type of their own. -/
def ExtensionSettled (ctx : Context) (d : Draft) (k : Nat) (schema : SchemaNode) : Prop :=
  ctx.settings.additionalPropertiesEnabled = true → typedExtension schema.keywords = true →
    PlaceSettled ctx d k (schema.location.below ["additionalProperties"])

theorem attachAdditionalProperties_follows {keys : List String} (h : Opening ctx k id type keys d)
    (hrule : Works ctx k rule) (name : String) :
    Follows (Acts ctx type.index) (attachAdditionalProperties ctx rule type id name
        (d.store.node id).keywords.additionalProperties) d
      (fun _ e => Opening ctx k id type keys e ∧
        ExtensionSettled ctx e k (d.store.node id)) := by
  have hset : ∀ {e : Draft} {value : TypeRef}, Opening ctx k id type keys e → value.Valid e.graph →
      ExtensionSettled ctx e k (d.store.node id) → Follows (Acts ctx type.index)
        (update type fun decl => { decl with additionalProperties := some value }) e
        (fun _ u => Opening ctx k id type keys u ∧ ExtensionSettled ctx u k (d.store.node id)) :=
    fun he hvalid hsettled => (he.update_rest
      (act_update (.additional (Nat.le_refl _) hvalid) fun _ => rfl) fun _ => rfl).imp
        fun _ _ heu h => ⟨h.2, fun henabled htyped =>
          (hsettled henabled htyped).keeps he.consistent.store heu.retains (Nat.le_refl k)⟩
  have huntyped : typedExtension (d.store.node id).keywords = false →
      ExtensionSettled ctx d k (d.store.node id) :=
    fun hfalse _ htrue => by rw [hfalse] at htrue; cases htrue
  unfold attachAdditionalProperties
  by_cases henabled : ctx.settings.additionalPropertiesEnabled = false
  · simp only [henabled, if_true]
    exact Follows.pure ⟨h, fun htrue => by rw [henabled] at htrue; cases htrue⟩
  · simp only [henabled]
    rw [if_neg (by simp)]
    split
    · rename_i hallowed
      exact Follows.pure ⟨h, huntyped (by simp [typedExtension, hallowed])⟩
    · rename_i hallowed
      exact hset h (fun _ ho => by cases ho) (huntyped (by simp [typedExtension, hallowed]))
    · rename_i hallowed
      exact hset h (fun _ ho => by cases ho) (huntyped (by simp [typedExtension, hallowed]))
    · rename_i hallowed
      exact hset h (fun _ ho => by cases ho) (huntyped (by simp [typedExtension, hallowed]))
    · refine (h.toSteady.child h.node _).bind fun found e hde ⟨hscans, hsteady, hfound⟩ => ?_
      have he := h.after (.single (act_schemas hscans)) hsteady
      refine Follows.seq (hsteady.generate hrule (hfound.has he.consistent.store) _
        (fun owner ho => by cases ho; exact he.has) (Nat.le_of_lt he.has))
        fun value t _ ⟨hl, hsteady, ht⟩ => ?_
      refine hset (he.after hl hsteady) (ht.valid hsteady.consistent.placed) fun _ _ => ?_
      rw [← hscans.grows.node h.node]
      exact ⟨_, _, hl.retains.grows.index hfound.known, ht⟩

/-- If the child of a family is named by a reference, the schema that it leads to is settled. -/
def ChildSettled (ctx : Context) (d : Draft) (k : Nat) (document : String)
    (declaration : ChildDeclaration) : Prop :=
  ∀ text place, declaration.target = .reference text →
    Location.ofReference document text = .ok place → PlaceSettled ctx d k place

theorem ChildSettled.keeps (hs : d.store.Sound) (hr : Retains d e) {document : String}
    {declaration : ChildDeclaration} (h : ChildSettled ctx d k document declaration) :
    ChildSettled ctx e k document declaration :=
  fun text place htext hplace => (h text place htext hplace).keeps hs hr (Nat.le_refl k)

theorem familyChild_follows {keys : List String} (h : Opening ctx k id type keys d)
    (hrule : Works ctx k rule) (declaration : ChildDeclaration) :
    Follows (Acts ctx type.index) (familyChild ctx rule id declaration) d
      (fun child e => Opening ctx k id type keys e ∧ child.1.Valid e.graph ∧
        ChildSettled ctx e k (d.store.node id).location.document declaration) := by
  rcases declaration with ⟨target, tag⟩
  cases target with
  | className name => exact Follows.pure ⟨h, (fun _ ht => by cases ht), nofun⟩
  | reference text =>
    have hresolve : Follows (Acts ctx type.index)
        (inStore (Store.resolveReference ctx.files id text)) d
        (fun target e => Scans d e ∧ e.store.Has target ∧ ∃ place,
          Location.ofReference (d.store.node id).location.document text = .ok place ∧
            e.store.id? place = some target) := by
      refine Follows.along (S := Scans) ?_ fun e hs => .single (act_schemas hs)
      exact (inStore_follows (Store.resolveReference_known id text h.consistent.store)
        fun _ hg => scans_schemas hg).imp fun target e hs ⟨_, place, hplace, hknown⟩ =>
          ⟨hs, (hs.grows.sound h.consistent.store).bound hknown, place, hplace, hknown⟩
    refine hresolve.bind fun target e _ ⟨hscans, hhas, place, hplace, hknown⟩ => ?_
    have hsteady := h.toSteady.scans hscans
    have he := h.after (.single (act_schemas hscans)) hsteady
    refine Follows.after (a := e.store.node target) rfl ?_
    refine (hsteady.call hrule hhas (fun owner ho => by cases ho) (Nat.le_of_lt he.has)).bind
      fun t u _ ⟨hl, hsteady, ht⟩ => Follows.pure ⟨he.after hl hsteady, fun t' ht' => ?_, ?_⟩
    · cases ht'
      exact ht.valid hsteady.consistent.placed
    · rintro _ other ⟨⟩ hother
      obtain rfl := Except.ok.inj (hplace.symm.trans hother)
      exact ⟨target, t, hl.retains.grows.index hknown, ht⟩

theorem declareFamily_follows {keys : List String} (h : Opening ctx k id type keys d)
    (hrule : Works ctx k rule) {metadata : Json}
    (hfamily : (d.store.node id).keywords.family = some metadata) :
    Follows (Acts ctx type.index) (declareFamily ctx rule type id metadata) d
      (fun _ e => Filling ctx k id type keys e ∧ ∀ place,
        ChildPlace ctx.settings (d.store.node id) place → PlaceSettled ctx e k place) := by
  unfold declareFamily
  refine Follows.after (a := d.store.node id) rfl ?_
  simp only
  split
  · exact Follows.throw
  · rename_i declared hdeclared
    have hchildren := Follows.mapM (R := Acts ctx type.index) (f := familyChild ctx rule id)
      (I := fun e => Opening ctx k id type keys e ∧ e.store.node id = d.store.node id)
      (P := fun declaration child e => child.1.Valid e.graph ∧
        ChildSettled ctx e k (d.store.node id).location.document declaration)
      (fun _ _ s t hs hst hp =>
        ⟨hp.1.keeps hst.keeps, hp.2.keeps hs.1.consistent.store hst.retains⟩)
      declared.children
      (fun declaration _ e he => by
        refine (familyChild_follows he.1 hrule declaration).imp fun child t het ht => ?_
        have hnode := (het.retains.grows.node he.1.node).trans he.2
        rw [he.2] at ht
        exact ⟨⟨ht.1, hnode⟩, ht.2⟩)
    refine (hchildren d ⟨h, rfl⟩).bind fun children e _ ⟨⟨he, _⟩, hall⟩ => ?_
    let family : Family :=
      ⟨type, (d.store.node id).location, declared.inclusion, declared.identification,
      declared.property, children⟩
    have hvalid : family.Valid e.graph := by
      exact ⟨he.has, forall_mem_of_forall₂ (p := fun (child : ChildType × Option String) =>
        child.1.Valid e.graph) (fun _ _ hchild => hchild.1) hall⟩
    have ha : Act ctx type.index e { e with families := e.families ++ [family] } :=
      act_family hvalid (Nat.le_refl _) he.unclaimed
    refine Follows.change (.single ha) ⟨he.acts ha rfl (fun _ _ => rfl) ?_, ?_⟩
    · exact he.populated.keeps he.consistent.store he.node ha.move.retains (Nat.le_refl k)
    · rintro place ⟨other, discriminator, text, tag, hother, hread, hchild, hplace⟩
      obtain rfl := Option.some.inj (hfamily.symm.trans hother)
      obtain rfl := Except.ok.inj (hdeclared.symm.trans hread)
      have hsettled : ∀ declaration ∈ declared.children,
          ChildSettled ctx e k (d.store.node id).location.document declaration :=
        forall_mem_of_forall₂ (fun _ _ hchild => hchild.2) hall.flip
      exact (hsettled _ hchild).keeps he.consistent.store ha.move.retains text place rfl hplace

theorem addProperties_follows (h : Opening ctx k id type [] d) (hrule : Works ctx k rule) :
    Follows (Acts ctx type.index)
      (((d.store.node id).keywords.properties.getD []).forM fun (key, _) =>
        addProperty ctx rule type id (d.store.node id).keywords.requiredKeys key) d
      (fun _ e => Opening ctx k id type (memberKeys (d.store.node id).keywords) e) := by
  have hall := Follows.forM (R := Acts ctx type.index)
    (f := fun (member : String × Json) =>
      addProperty ctx rule type id (d.store.node id).keywords.requiredKeys member.1)
    (I := fun rest e => e.store.node id = d.store.node id ∧
      ∃ done, memberKeys (d.store.node id).keywords = done ++ rest.map (·.1) ∧
        Opening ctx k id type done e)
    (fun member rest e ⟨hnode, done, hdone, he⟩ => by
      rw [← hnode]
      refine (addProperty_follows he hrule member.1).imp fun _ t het ht => ?_
      refine ⟨het.retains.grows.node he.node, done ++ [member.1], ?_, ht⟩
      rw [hnode, hdone, List.append_assoc]
      rfl)
  refine (hall _ d ⟨rfl, [], rfl, h⟩).imp fun _ e _ ⟨_, done, hdone, he⟩ => ?_
  rw [List.map_nil, List.append_nil] at hdone
  rw [hdone]
  exact he

/-- What is left to do for a class once it has its superclass. -/
def populateMembers (ctx : Context) (rule : Rule) (type : TypeId) (id : NodeId) (name : String)
    (k : Keywords) : Drafting Unit := do
  (k.properties.getD []).forM fun (key, _) => addProperty ctx rule type id k.requiredKeys key
  attachAdditionalProperties ctx rule type id name k.additionalProperties
  match k.family with
  | some metadata => declareFamily ctx rule type id metadata
  | none => pure ()

theorem populateMembers_follows (h : Opening ctx k id type [] d) (hrule : Works ctx k rule)
    (name : String) :
    Follows (Acts ctx type.index)
      (populateMembers ctx rule type id name (d.store.node id).keywords) d
      (fun _ e => Filling ctx k id type (memberKeys (d.store.node id).keywords) e ∧
        ExtensionSettled ctx e k (d.store.node id) ∧
        ∀ place, ChildPlace ctx.settings (d.store.node id) place → PlaceSettled ctx e k place) := by
  unfold populateMembers
  refine (addProperties_follows h hrule).bind fun _ t hdt ht => ?_
  have hnode := hdt.retains.grows.node h.node
  have hadditional := attachAdditionalProperties_follows ht hrule name
  rw [hnode] at hadditional
  refine hadditional.bind fun _ u htu ⟨hu, hextension⟩ => ?_
  have hnode := (htu.retains.grows.node ht.node).trans hnode
  split
  · rename_i metadata hfamily
    rw [← hnode] at hfamily
    refine (declareFamily_follows hu hrule hfamily).imp ?_
    rintro _ v huv ⟨hv, hchildren⟩
    rw [hnode] at hchildren
    exact ⟨hv, fun henabled htyped => (hextension henabled htyped).keeps hu.consistent.store
      huv.retains (Nat.le_refl k), hchildren⟩
  · rename_i hnone
    refine Follows.pure ⟨hu.toFilling, hextension, ?_⟩
    rintro place ⟨metadata, _, _, _, hfamily, -⟩
    rw [hnone] at hfamily
    cases hfamily

theorem attendsAll_bean {schema : SchemaNode} (hnode : d.store.node id = schema)
    (hsuper : schema.keywords.superclass.isSome = true →
      PlaceSettled ctx d k (schema.location.below ["extends"]))
    (hextension : ExtensionSettled ctx d k schema)
    (hchildren : ∀ place, ChildPlace ctx.settings schema place → PlaceSettled ctx d k place) :
    AttendsAll ctx d k id .bean := by
  subst hnode
  intro place hplace
  cases hplace with
  | superclass _ hsome => exact hsuper hsome
  | additional _ henabled htyped => exact hextension henabled htyped
  | family _ hplace => exact hchildren place hplace

theorem populate_follows (h : Opening ctx k id type [] d) (hloose : d.graph.Loose type)
    (hrule : Works ctx k rule) (name : String) :
    Follows (Acts ctx type.index) (populate ctx rule type id name) d
      (fun _ e => Filling ctx k id type (memberKeys (d.store.node id).keywords) e ∧
        AttendsAll ctx e k id .bean) := by
  unfold populate
  refine Follows.after (a := d.store.node id) rfl ?_
  by_cases hsuper : (d.store.node id).keywords.superclass.isSome = true
  · simp only [if_pos hsuper]
    refine (attachSuperclass_follows h hloose hsuper hrule name).bind ?_
    rintro _ e hde ⟨he, hsettled⟩
    have hnode := hde.retains.grows.node h.node
    rw [← hnode] at hsettled ⊢
    refine (populateMembers_follows he hrule name).imp ?_
    rintro _ u heu ⟨hu, hextension, hchildren⟩
    refine ⟨hu, ?_⟩
    refine attendsAll_bean (heu.retains.grows.node he.node) (fun _ => ?_) hextension hchildren
    exact hsettled.keeps he.consistent.store heu.retains (Nat.le_refl k)
  · simp only [if_neg hsuper]
    refine (populateMembers_follows h hrule name).imp ?_
    rintro _ u hdu ⟨hu, hextension, hchildren⟩
    exact ⟨hu, attendsAll_bean (hdu.retains.grows.node h.node)
      (fun hsome => absurd hsome hsuper) hextension hchildren⟩

end SchemaBeans.Drafting
