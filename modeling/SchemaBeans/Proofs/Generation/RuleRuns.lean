import SchemaBeans.Proofs.Generation.Members

/-! # Running the rules

Every rule, if it succeeds, settles its schema and completes the types that it declared, and on the
way it only does what acts do. The type of a union is linked to one branch after the other, and no
later act parts it from those before. The induction is on the fuel: a rule calls the generation of
other schemas with one unit less. -/
namespace SchemaBeans.Drafting

variable {ctx : Context} {rule : Rule} {d e : Draft} {k base : Nat} {id : NodeId} {type : TypeId}
  {request : Request} {kind : TypeKind}

theorem Consistent.steady (h : Consistent d) : Steady ctx k d.graph.size d :=
  ⟨h, built_size, Nat.le_refl _⟩

/-- A place without a type does not have the name that it asks for. -/
theorem not_taken (hd : Consistent d) {place : Location} (htype : d.graph.typeAt? place = none)
    (name : String) (other : TypeId) : d.registry.claim name place ≠ .ok (.taken other) := by
  unfold NameRegistry.claim
  intro h
  split at h
  · cases h
  · rename_i held holder hlookup
    split at h
    · rename_i hsame
      obtain ⟨hhas, _, hplace⟩ := (hd.named name held holder).mp hlookup
      exact (TypeGraph.typeAt?_eq_none hd.placed).mp htype held hhas (hplace.trans hsame)
    · cases h

theorem declare_follows (hd : Consistent d) (hid : d.store.Has id)
    (htype : d.graph.typeAt? (d.store.node id).location = none)
    (hlib : library? (d.store.node id) = none) (hmakes : Makes d id kind)
    (hfits : request.Fits d.graph) :
    Follows (Acts ctx base) (declare ctx request id kind) d (fun registration e =>
      Declarable ctx d request id kind ∧ registration = .created ⟨d.graph.size⟩ ∧
        e = declared ctx d request id kind) := by
  unfold declare
  refine Follows.after (a := d.store.node id) rfl (Follows.after (a := d) rfl ?_)
  refine Follows.after (a := d) rfl (Follows.lift_bind fun claim hclaim => ?_)
  cases claim with
  | taken other => exact absurd hclaim (not_taken hd htype _ other)
  | vacant =>
    refine Follows.lift_bind fun _ henclosing => ?_
    have hdecl : Declarable ctx d request id kind :=
      ⟨hid, htype, hlib, hmakes, hfits, hclaim, henclosing⟩
    exact Follows.change_bind (.single (act_declare hdecl)) (Follows.pure ⟨hdecl, rfl, rfl⟩)

theorem opening_declared (hd : Consistent d) (hdecl : Declarable ctx d request id kind) :
    Opening ctx k id ⟨d.graph.size⟩ [] (declared ctx d request id kind) := by
  have hm : Move ctx 0 d (declared ctx d request id kind) := .declare hdecl
  have hget := TypeGraph.get_insert_self d.graph
  refine ⟨⟨⟨hm.consistent hd, ?_, ?_⟩, hdecl.has, TypeGraph.has_insert.mpr (Or.inr rfl), ?_, ?_⟩,
    ?_⟩
  · have hsize : (declared ctx d request id kind).graph.size = d.graph.size + 1 :=
      TypeGraph.size_insert _ _
    rw [← hsize]
    exact built_size
  · exact Nat.le_of_eq (TypeGraph.size_insert _ _).symm
  · simp only [declared, hget]
  · simp only [declared, hget]
    exact ⟨.nil, List.nodup_nil⟩
  · intro hclaimed
    obtain ⟨family, hfamily, hparent⟩ := List.mem_map.mp hclaimed
    have hhas := (hd.families family hfamily).parent
    rw [hparent] at hhas
    exact absurd hhas (Nat.lt_irrefl _)

theorem loose_declared : (declared ctx d request id kind).graph.Loose ⟨d.graph.size⟩ := by
  refine TypeGraph.loose_of_none ?_
  rw [declared, TypeGraph.get_insert_self]

/-- Once the type says all that its schema says, it and all younger types are built. -/
theorem Filling.completes {keys : List String} (h : Filling ctx k id type keys e)
    (hcomplete : CompleteDecl ctx e k id (e.graph.get type)) (hall : GathersAll ctx e k id type)
    (hattends : AttendsAll ctx e k id (e.graph.get type).kind)
    (hlabels : (e.graph.get type).kind = .enum →
      Labels ctx.settings (e.store.node id).keywords (e.graph.get type)) :
    Built ctx e k type.index := by
  have hid : e.store.id? (e.graph.get type).place = some id := by
    rw [h.place]
    exact h.consistent.store.own h.node
  have hlater : ∀ other : TypeId, type.index ≤ other.index → other ≠ type →
      type.index + 1 ≤ other.index := by
    intro other hle hne
    refine Nat.lt_of_le_of_ne hle fun hindex => hne ?_
    cases other
    cases type
    simp_all
  constructor
  · intro other hother hle
    by_cases heq : other = type
    · rw [heq]
      exact ⟨id, hid, hcomplete⟩
    · exact h.built.filled other hother (hlater other hle heq)
  · intro other hother hle
    by_cases heq : other = type
    · rw [heq]
      exact ⟨id, hid, hall⟩
    · exact h.built.gathered other hother (hlater other hle heq)
  · intro other hother hle
    by_cases heq : other = type
    · rw [heq]
      exact ⟨id, hid, hattends⟩
    · exact h.built.attended other hother (hlater other hle heq)
  · intro other hother hle
    by_cases heq : other = type
    · rw [heq]
      exact fun hkind => ⟨id, hid, hlabels hkind⟩
    · exact h.built.labelled other hother (hlater other hle heq)

theorem Filling.settles {keys : List String} (h : Filling ctx k id type keys e) (f : Nat) :
    Settles ctx e (f + 1) id (.generated type) := by
  refine SettlesBy.typed ?_
  rw [← h.place]
  exact h.consistent.placed.typeAt? h.has

/-- What a rule has to establish for a schema without a type. -/
def Establishes (ctx : Context) (k : Nat) (d : Draft) (id : NodeId) (x : Drafting TypeRef) : Prop :=
  Follows (Acts ctx d.graph.size) x d
    (fun t e => Settles ctx e (k + 1) id t ∧ Built ctx e (k + 1) d.graph.size)

theorem Filling.establishes {keys : List String} (h : Filling ctx k id type keys e)
    (hcomplete : CompleteDecl ctx e k id (e.graph.get type)) (hall : GathersAll ctx e k id type)
    (hattends : AttendsAll ctx e k id (e.graph.get type).kind)
    (hlabels : (e.graph.get type).kind = .enum →
      Labels ctx.settings (e.store.node id).keywords (e.graph.get type)) :
    Settles ctx e (k + 1) id (.generated type) ∧ Built ctx e (k + 1) type.index :=
  ⟨h.settles k,
    (h.completes hcomplete hall hattends hlabels).mono h.consistent.store (Nat.le_succ k)⟩

theorem gathersAll_of_shape {shape : Shape} (hshape : (e.store.node id).shape = shape)
    (hne : shape ≠ .union) : GathersAll ctx e k id type := fun h => absurd (hshape.symm.trans h) hne

theorem attendsAll_enum : AttendsAll ctx e k id .enum := by
  intro place hplace
  cases hplace with
  | superclass hkind | additional hkind => cases hkind
  | family hkind => exact absurd rfl hkind

theorem nameLiterals_values {custom : List String} :
    ∀ {literals : List Json} {done constants : List EnumConstant},
    nameLiterals custom done literals = .ok constants →
      constants.map (·.value) = done.map (·.value) ++ literals := by
  intro literals
  induction literals with
  | nil =>
    intro done constants h
    cases h
    simp
  | cons literal rest ih =>
    intro done constants h
    simp only [nameLiterals] at h
    split at h
    · cases h
    · rw [ih h]
      simp

theorem enumValueType_valid (settings : Settings) (keywords : Keywords) (g : TypeGraph) :
    (enumValueType settings keywords).Valid g := by
  intro id hid
  unfold enumValueType at hid
  split at hid <;> cases hid

theorem enumRule_establishes (hd : Consistent d) (hid : d.store.Has id)
    (htype : d.graph.typeAt? (d.store.node id).location = none)
    (hlib : library? (d.store.node id) = none) (hshape : (d.store.node id).shape = .enumeration)
    (hfits : request.Fits d.graph) : Establishes ctx k d id (enumRule ctx request id) := by
  unfold enumRule Establishes
  refine (declare_follows hd hid htype hlib (.enumeration hshape) hfits).bind ?_
  rintro _ _ - ⟨hdecl, rfl, rfl⟩
  have hopening := opening_declared (k := k) hd hdecl
  refine Follows.after (a := d.store.node id) rfl ?_
  simp only
  split
  · exact Follows.throw
  · rename_i constants hnames
    refine (hopening.update_rest (act_update (.constants (Nat.le_refl _)
      (enumValueType_valid _ _ _)) fun _ => rfl) fun _ => rfl).bind ?_
    rintro _ _ - ⟨rfl, hdone⟩
    have hself : (updated (declared ctx d request id .enum) ⟨d.graph.size⟩ fun decl => { decl with
        constants := constants
        enumValueType := enumValueType ctx.settings (d.store.node id).keywords }).graph.get
          ⟨d.graph.size⟩ = _ := TypeGraph.get_update_self hopening.has _
    refine Follows.pure (hdone.establishes ?_ (gathersAll_of_shape hshape nofun) ?_ ?_) <;>
      rw [hself]
    · simp only [CompleteDecl, declared, TypeGraph.get_insert_self]
      exact nameLiterals_values hnames
    · simp only [declared, TypeGraph.get_insert_self]
      exact attendsAll_enum
    · exact fun _ => ⟨hnames, rfl⟩

theorem kind_declared {e : Draft} (hl : Acts ctx base (declared ctx d request id kind) e) :
    (e.graph.get ⟨d.graph.size⟩).kind = kind := by
  rw [hl.keeps.kind (TypeGraph.has_insert.mpr (Or.inr rfl))]
  simp only [declared, TypeGraph.get_insert_self]

theorem populate_declared (hd : Consistent d) (hdecl : Declarable ctx d request id .bean)
    (hrule : Works ctx k rule) (name : String) :
    Follows (Acts ctx d.graph.size) (populate ctx rule ⟨d.graph.size⟩ id name)
      (declared ctx d request id .bean) (fun _ e =>
        Filling ctx k id ⟨d.graph.size⟩ (memberKeys (e.store.node id).keywords) e ∧
          CompleteDecl ctx e k id (e.graph.get ⟨d.graph.size⟩) ∧ AttendsAll ctx e k id .bean) := by
  have hopening := opening_declared (k := k) hd hdecl
  refine (populate_follows hopening loose_declared hrule name).imp fun _ e hl ⟨he, hattends⟩ => ?_
  rw [← hl.retains.grows.node hopening.node] at he
  refine ⟨he, ?_, hattends⟩
  unfold CompleteDecl
  rw [kind_declared hl]
  exact he.populated

theorem objectRule_establishes (hd : Consistent d) (hid : d.store.Has id)
    (htype : d.graph.typeAt? (d.store.node id).location = none)
    (hlib : library? (d.store.node id) = none) (hshape : (d.store.node id).shape = .object)
    (hfits : request.Fits d.graph) (hrule : Works ctx k rule) :
    Establishes ctx k d id (objectRule ctx rule request id) := by
  unfold objectRule Establishes
  refine (declare_follows hd hid htype hlib (.object hshape) hfits).bind ?_
  rintro _ _ - ⟨hdecl, rfl, rfl⟩
  refine (populate_declared hd hdecl hrule request.name).bind
    fun _ e hl ⟨he, hcomplete, hattends⟩ => ?_
  have hnode : e.store.node id = d.store.node id := hl.retains.grows.node hdecl.has
  rw [← hnode] at hshape
  rw [← kind_declared hl] at hattends
  exact Follows.pure (he.establishes hcomplete (gathersAll_of_shape hshape nofun) hattends
    fun henum => absurd ((kind_declared hl).symm.trans henum) nofun)

theorem arrayRule_establishes (hd : Consistent d) (hid : d.store.Has id)
    (hlib : library? (d.store.node id) = none) (hshape : (d.store.node id).shape = .array)
    (hfits : request.Fits d.graph) (hrule : Works ctx k rule) :
    Establishes ctx k d id (arrayRule ctx rule request id) := by
  have hsteady : Steady ctx k d.graph.size d := hd.steady
  have huntyped : untypedItems (d.store.node id).keywords = true →
      Establishes ctx k d id (pure (collection (d.store.node id).keywords .any)) := by
    intro hitems
    refine Follows.pure ⟨.untyped hlib hshape hitems, ?_⟩
    exact hsteady.built.mono hd.store (Nat.le_succ k)
  unfold arrayRule Establishes
  refine Follows.after (a := d.store.node id) rfl ?_
  simp only
  split
  · rename_i hitems
    exact Follows.after rfl (huntyped (by simp [untypedItems, hitems]))
  · rename_i hitems
    exact Follows.after rfl (huntyped (by simp [untypedItems, hitems]))
  · rename_i items hnot hitems
    have htyped : untypedItems (d.store.node id).keywords = false := by
      cases items with
      | array elements => exact absurd rfl (hnot elements)
      | _ => simp only [untypedItems, hitems]
    refine (hsteady.child hid _).bind fun found e hde ⟨hscans, he, hfound⟩ => ?_
    have hplacement : ∀ owner, request.placement = .inside owner → e.graph.Has owner :=
      hfits.keeps hde.keeps
    refine Follows.seq (he.generate hrule (hfound.has he.consistent.store) _ hplacement he.bounded)
      fun element t het ⟨hl, ht, hsettles⟩ =>
        Follows.pure ⟨?_, ht.built.mono ht.consistent.store (Nat.le_succ k)⟩
    have hide := hscans.grows.has hid
    have hnode : t.store.node id = d.store.node id :=
      (hl.retains.grows.node hide).trans (hscans.grows.node hid)
    rw [← hnode] at hlib hshape htyped ⊢
    exact .items hlib hshape htyped
      (hfound.grows he.consistent.store hide hl.retains.grows) hsettles

/-- The state while branches are generated. -/
structure Branching (ctx : Context) (k lo : Nat) (request : Request) (found : List Store.Child)
    (d : Draft) : Prop where
  steady : Steady ctx k lo d
  fits : request.Fits d.graph
  has : ∀ branch ∈ found, d.store.Has branch.id

theorem Branching.after {lo : Nat} {found : List Store.Child}
    (h : Branching ctx k lo request found d) (hl : Acts ctx base d e) (hs : Steady ctx k lo e) :
    Branching ctx k lo request found e :=
  ⟨hs, h.fits.keeps hl.keeps, fun branch hbranch => hl.retains.grows.has (h.has branch hbranch)⟩

theorem collapse_follows {found : List Store.Child} (h : Branching ctx k base request found d)
    (hrule : Works ctx k rule) :
    Follows (Acts ctx base) (collapse rule request found) d (fun t e => Steady ctx k base e ∧
      ∃ types, List.Forall₂ (fun branch t => Settles ctx e k branch.id t) found types ∧
        t = commonType types) := by
  have hall := Follows.mapM (R := Acts ctx base)
    (f := fun (entry : Store.Child × Nat) =>
      branchRule rule request entry.1 (branchName request entry.2))
    (I := Branching ctx k base request found)
    (P := fun entry t e => e.store.Has entry.1.id ∧ Settles ctx e k entry.1.id t)
    (fun _ _ s t hs hst ⟨hhas, ht⟩ =>
      ⟨hst.retains.grows.has hhas, ht.keeps hs.steady.consistent.store hst.retains hhas⟩)
    found.zipIdx
    (fun entry hentry s hs => by
      have hhas := hs.has entry.1 (List.fst_mem_of_mem_zipIdx hentry)
      refine (hs.steady.generate hrule hhas _ hs.fits hs.steady.bounded).imp
        fun t e hl ⟨_, he, ht⟩ => ?_
      exact ⟨hs.after hl he, hl.retains.grows.has hhas, ht⟩)
  unfold collapse
  refine (hall d h).bind fun types e _ ⟨he, htypes⟩ => ?_
  have hbranches : List.Forall₂ (fun branch t => Settles ctx e k branch.id t) found types := by
    rw [← List.zipIdx_map_fst 0 found, List.forall₂_map_left_iff]
    exact htypes.imp fun _ _ h => h.2
  cases types <;> exact Follows.pure ⟨he.steady, _, hbranches, rfl⟩

theorem addBranch_follows {marker : TypeId} {keys : List String}
    (h : Filling ctx k id marker keys d) (hkind : (d.graph.get marker).kind = kind)
    (hrule : Works ctx k rule) (hfits : request.Fits d.graph) {branch : Store.Child × Nat}
    (hbranch : d.store.Has branch.1.id) :
    Follows (Acts ctx marker.index) (addBranch rule request marker kind branch) d
      (fun _ e => Filling ctx k id marker keys e ∧ Gathers ctx e k marker branch.1) := by
  unfold addBranch
  refine (h.toSteady.generate hrule hbranch _ hfits (Nat.le_of_lt h.has)).bind
    fun t e hde ⟨hl, hsteady, ht⟩ => ?_
  have he := h.after hl hsteady
  cases t with
  | generated child =>
    rw [← hde.keeps.kind h.has] at hkind
    subst hkind
    have hhas := ht.valid hsteady.consistent.placed child rfl
    have ha : Act ctx marker.index e
        { e with graph := linkBranch e.graph marker (e.graph.get marker).kind child } :=
      act_link he.has hhas
    have hbody : ∀ other,
        ((linkBranch e.graph marker (e.graph.get marker).kind child).get other).body =
        (e.graph.get other).body :=
      fun other => get_linkBranch (fun _ _ => rfl) (fun _ _ => rfl) (fun _ _ => rfl) _ _ _ _ other
    refine Follows.change (.single ha)
      ⟨he.acts ha (size_linkBranch _ _ _ _) (fun other _ => hbody other) ?_,
        .generated child, ?_, ?_⟩
    · rw [TypeDecl.properties_of_body (hbody marker)]
      exact he.populated.keeps he.consistent.store he.node ha.move.retains (Nat.le_refl k)
    · exact ht.keeps he.consistent.store ha.move.retains (hde.retains.grows.has hbranch)
    · intro other hother hne
      cases hother
      exact joined_linkBranch he.consistent.acyclic hhas hne
  | _ => exact Follows.pure ⟨he, _, ht, nofun⟩

theorem addBranches_follows {found : List Store.Child} {marker : TypeId} {keys : List String}
    (h : Filling ctx k id marker keys d) (hkind : (d.graph.get marker).kind = kind)
    (hrule : Works ctx k rule) (hfits : request.Fits d.graph)
    (hfound : ∀ branch ∈ found, d.store.Has branch.id) :
    Follows (Acts ctx marker.index) (found.zipIdx.forM (addBranch rule request marker kind)) d
      (fun _ e => Filling ctx k id marker keys e ∧
        ∀ branch ∈ found, Gathers ctx e k marker branch) := by
  have hall := Follows.forM (R := Acts ctx marker.index) (f := addBranch rule request marker kind)
    (I := fun rest e => Filling ctx k id marker keys e ∧ (e.graph.get marker).kind = kind ∧
      request.Fits e.graph ∧ (∀ branch ∈ found, e.store.Has branch.id) ∧
      ∃ done, found = done ++ rest.map (·.1) ∧ ∀ branch ∈ done, Gathers ctx e k marker branch)
    (fun branch rest e ⟨he, hkind, hfits, hfound, done, hdone, hgathers⟩ => by
      have hbranch : branch.1 ∈ found := by simp [hdone]
      refine (addBranch_follows he hkind hrule hfits (hfound _ hbranch)).imp ?_
      intro _ t het ⟨ht, hnew⟩
      refine ⟨ht, (het.keeps.kind he.has).trans hkind, hfits.keeps het.keeps,
        fun other hother => het.retains.grows.has (hfound other hother), done ++ [branch.1], ?_,
        fun other hother => ?_⟩
      · rw [hdone, List.append_assoc]
        rfl
      · rcases List.mem_append.mp hother with hold | hlast
        · refine (hgathers other hold).keeps he.consistent.store het (Nat.le_refl k) he.has ?_
          exact hfound other (by simp [hdone, hold])
        · rw [List.mem_singleton.mp hlast]
          exact hnew)
  have hstart : found = [] ++ found.zipIdx.map (·.1) := (List.zipIdx_map_fst 0 found).symm
  refine (hall found.zipIdx d ⟨h, hkind, hfits, hfound, [], hstart, by simp⟩).imp ?_
  rintro _ e - ⟨he, -, -, -, done, hdone, hgathers⟩
  rw [List.map_nil, List.append_nil] at hdone
  exact ⟨he, hdone ▸ hgathers⟩

/-- A union without a type of its own has the type that its branches have in common. -/
theorem union_settles {found : List Store.Child} {shapes : List Shape} {types : List TypeRef}
    (hd : Consistent d) (hid : d.store.Has id) (hlib : library? (d.store.node id) = none)
    (hshape : (d.store.node id).shape = .union) (hplan : Plan d (k + 1) id found shapes)
    (hmarker : marker? (d.store.node id).keywords found shapes = none) (hl : Acts ctx base d e)
    (he : Steady ctx k d.graph.size e)
    (htypes : List.Forall₂ (fun branch t => Settles ctx e k branch.id t) found types) :
    Settles ctx e (k + 1) id (commonType types) ∧ Built ctx e (k + 1) d.graph.size := by
  have hnode := hl.retains.grows.node hid
  refine ⟨?_, he.built.mono he.consistent.store (Nat.le_succ k)⟩
  rw [← hnode] at hlib hshape hmarker
  exact SettlesBy.union hlib hshape (hplan.keeps hd.store hid hl.retains.toRemembers) hmarker htypes

/-- The last part of a union with a type of its own: its branches are linked to the type. -/
theorem linkBranches_establishes {found : List Store.Child} {keys : List String}
    (hd : Consistent d) (hdecl : Declarable ctx d request id kind) (hrule : Works ctx k rule)
    (hbranches : Branches d.store id found)
    (hl : Acts ctx d.graph.size (declared ctx d request id kind) e)
    (he : Filling ctx k id ⟨d.graph.size⟩ keys e)
    (hkeys : kind = .bean → keys = memberKeys (d.store.node id).keywords) (hkind : kind ≠ .enum)
    (hattends : AttendsAll ctx e k id kind) :
    Follows (Acts ctx d.graph.size) (do
      found.zipIdx.forM (addBranch rule request ⟨d.graph.size⟩ kind)
      pure (.generated ⟨d.graph.size⟩)) e
      (fun t u => Settles ctx u (k + 1) id t ∧ Built ctx u (k + 1) d.graph.size) := by
  have hfirst : Acts ctx d.graph.size d (declared ctx d request id kind) :=
    .single (act_declare hdecl)
  have hde : Acts ctx d.graph.size d e := hfirst.trans hl
  refine (addBranches_follows he (kind_declared hl) hrule (hdecl.fits.keeps hde.keeps)
    fun branch hbranch => hde.retains.grows.has (hbranches.has hd.store branch hbranch)).bind
    fun _ u heu ⟨hu, hgathers⟩ => ?_
  have hdu : Acts ctx d.graph.size d u := hde.trans heu
  refine Follows.pure (hu.establishes ?_ (fun _ => ?_) ?_ fun henum =>
    absurd ((kind_declared (hl.trans heu)).symm.trans henum) hkind)
  · unfold CompleteDecl
    rw [kind_declared (hl.trans heu), hdu.retains.grows.node hdecl.has]
    cases kind with
    | bean =>
      rw [← hkeys rfl]
      exact hu.populated
    | enum => exact absurd rfl hkind
    | interface => trivial
  · exact ⟨found, hbranches.grows hd.store hdecl.has hdu.retains.grows, hgathers⟩
  · rw [kind_declared (hl.trans heu)]
    exact hattends.keeps he.consistent.store he.node heu.retains (Nat.le_refl k)

theorem markerOutcome_establishes {found : List Store.Child} (hd : Consistent d)
    (hid : d.store.Has id) (htype : d.graph.typeAt? (d.store.node id).location = none)
    (hlib : library? (d.store.node id) = none) (hmakes : Makes d id kind) (hkind : kind ≠ .enum)
    (hfits : request.Fits d.graph) (hrule : Works ctx k rule)
    (hbranches : Branches d.store id found) :
    Establishes ctx k d id
      (markerOutcome ctx rule request id (d.store.node id).keywords found kind) := by
  unfold markerOutcome Establishes
  refine (declare_follows hd hid htype hlib hmakes hfits).bind ?_
  rintro _ _ - ⟨hdecl, rfl, rfl⟩
  simp only
  by_cases hbean : kind = .bean
  · subst hbean
    rw [if_pos rfl]
    refine (populate_declared hd hdecl hrule request.name).bind ?_
    rintro _ e hl ⟨he, _, hattends⟩
    refine linkBranches_establishes hd hdecl hrule hbranches hl he (fun _ => ?_) hkind hattends
    rw [hl.retains.grows.node hdecl.has]
    rfl
  · rw [if_neg hbean]
    have hopening := opening_declared (k := k) hd hdecl
    split
    · rename_i metadata hfamily
      refine (declareFamily_follows hopening hrule hfamily).bind ?_
      rintro _ e hl ⟨he, hchildren⟩
      refine linkBranches_establishes hd hdecl hrule hbranches hl he (fun h => absurd h hbean) hkind
        fun place hplace => ?_
      rw [hl.retains.grows.node hdecl.has] at hplace
      cases hplace with
      | superclass hown | additional hown => exact absurd hown hbean
      | family _ hplace => exact hchildren place hplace
    · rename_i hnone
      refine linkBranches_establishes hd hdecl hrule hbranches (refl _) hopening.toFilling
        (fun h => absurd h hbean) hkind fun place hplace => ?_
      cases hplace with
      | superclass hown | additional hown => exact absurd hown hbean
      | family _ hplace =>
        obtain ⟨metadata, _, _, _, hfamily, -⟩ := hplace
        rw [show (declared ctx d request id kind).store.node id = d.store.node id from rfl,
          hnone] at hfamily
        cases hfamily

theorem unionOutcome_establishes {found : List Store.Child} {shapes : List Shape}
    (hd : Consistent d) (hid : d.store.Has id)
    (htype : d.graph.typeAt? (d.store.node id).location = none)
    (hlib : library? (d.store.node id) = none) (hshape : (d.store.node id).shape = .union)
    (hfits : request.Fits d.graph) (hrule : Works ctx k rule)
    (hplan : Plan d (k + 1) id found shapes) :
    Establishes ctx k d id
      (unionOutcome ctx rule request id (d.store.node id).keywords found shapes) := by
  have hsteady : Steady ctx k d.graph.size d := hd.steady
  have hhas := hplan.branches.has hd.store
  unfold Establishes
  cases hmarker : marker? (d.store.node id).keywords found shapes with
  | none =>
    rcases unionOutcome_of_none hmarker with ⟨only, rfl, houtcome⟩ | houtcome
    · rw [houtcome]
      refine (hsteady.generate hrule (hhas only (by simp)) _ hfits hsteady.bounded).imp ?_
      intro t e hl ⟨_, he, ht⟩
      exact union_settles hd hid hlib hshape hplan hmarker hl he (.cons ht .nil)
    · rw [houtcome]
      refine (collapse_follows ⟨hsteady, hfits, hhas⟩ hrule).imp ?_
      rintro _ e hl ⟨he, types, htypes, rfl⟩
      exact union_settles hd hid hlib hshape hplan hmarker hl he htypes
  | some kind =>
    obtain ⟨hkind, houtcome⟩ := unionOutcome_of_some hmarker
    rw [houtcome]
    exact markerOutcome_establishes hd hid htype hlib (.union hshape hplan hmarker) hkind hfits
      hrule hplan.branches

theorem unionRule_establishes (hd : Consistent d) (hid : d.store.Has id)
    (htype : d.graph.typeAt? (d.store.node id).location = none)
    (hlib : library? (d.store.node id) = none) (hshape : (d.store.node id).shape = .union)
    (hfits : request.Fits d.graph) (hrule : Works ctx k rule) :
    Establishes ctx k d id (unionRule ctx (k + 1) rule request id) := by
  have hscans : ∀ s e, Scans s e → Acts ctx d.graph.size s e :=
    fun _ _ h => .single (act_schemas h)
  have hbranches := (branches_scans ctx hd.store hid).imp (Q := fun found e => Scans d e ∧
    Branches e.store id found) fun _ _ h hb => ⟨h, hb⟩
  unfold unionRule Establishes
  refine Follows.after (a := d.store.node id) rfl ?_
  rcases hlist : branchList (d.store.node id).keywords with ⟨keyword, count⟩
  rw [hlist] at hbranches
  simp only [hlist]
  refine (hbranches.along (hscans d)).bind fun found e _ hfound => ?_
  obtain ⟨hde, hfound⟩ := hfound
  have hse := hde.grows.sound hd.store
  have hshapes := (effectiveShapes_scans ctx (k + 1) hse (hfound.has hse)).imp
    (Q := fun shapes t => Scans e t ∧
      List.Forall₂ (fun branch shape => Effective t (k + 1) branch.id shape) found shapes)
    fun _ _ h hb => ⟨h, hb⟩
  refine (hshapes.along (hscans e)).bind fun shapes t _ hshapes => ?_
  obtain ⟨het, hshapes⟩ := hshapes
  have hdt : Scans d t := IsTrans.trans _ _ _ hde het
  have hidt := hdt.grows.has hid
  have hnode := hdt.grows.node hid
  have hplan : Plan t (k + 1) id found shapes :=
    ⟨hfound.grows hse (hde.grows.has hid) het.grows, hshapes⟩
  have hconsistent : Consistent t := (hscans d t hdt).consistent hd
  rw [← hnode] at hlib hshape htype ⊢
  rw [← hdt.graph] at htype hfits ⊢
  exact unionOutcome_establishes hconsistent hidt htype hlib hshape hfits hrule hplan

theorem allOf_establishes (hd : Consistent d) (hid : d.store.Has id)
    (hlib : library? (d.store.node id) = none) (hshape : (d.store.node id).shape = .allOf)
    (hfits : request.Fits d.graph) (hrule : Works ctx k rule) :
    Establishes ctx k d id (do rule request (← mergeAllOf ctx (k + 1) id)) := by
  have hmerge := (mergeAllOf_scans ctx (k + 1) id d hd.store hid).imp
    (Q := fun made e => Scans d e ∧ Merges e.store e.merging (k + 1) id made)
    fun made e h ⟨hstack, hm⟩ => ⟨h, hstack ▸ hm⟩
  refine (hmerge.along fun e h => .single (act_schemas h)).bind fun made e _ ⟨hde, hm⟩ => ?_
  have he : Consistent e := (show Acts ctx 0 d e from .single (act_schemas hde)).consistent hd
  rw [← hde.graph] at hfits ⊢
  refine (hrule e request made he (hm.has_made he.store) hfits).imp fun t u hl ⟨ht, hbuilt⟩ => ?_
  have hide := hde.grows.has hid
  have hnode : u.store.node id = d.store.node id :=
    (hl.retains.grows.node hide).trans (hde.grows.node hid)
  refine ⟨?_, hbuilt.mono (hl.retains.grows.sound he.store) (Nat.le_succ k)⟩
  rw [← hnode] at hlib hshape
  exact SettlesBy.allOf hlib hshape (hl.retains.merges he.store hm) ht

theorem dispatch_works (ctx : Context) : ∀ k, Works ctx k (dispatch ctx k) := by
  intro k
  induction k with
  | zero => exact fun _ _ _ _ _ _ => Follows.throw
  | succ k hrule =>
    intro d request id hd hid hfits
    have hkept : Built ctx d (k + 1) d.graph.size := built_size
    rw [dispatch]
    cases htype : d.graph.typeAt? (d.store.node id).location with
    | some type => exact Follows.of_repeats (dispatchWith_typed htype) ⟨.typed htype, hkept⟩
    | none =>
      cases hlib : library? (d.store.node id) with
      | some name =>
        exact Follows.of_repeats (dispatchWith_library htype hlib) ⟨.library hlib, hkept⟩
      | none =>
        refine Follows.of_run_eq (dispatchWith_shape htype hlib) ?_
        cases hshape : (d.store.node id).shape with
        | allOf => exact allOf_establishes hd hid hlib hshape hfits hrule
        | union => exact unionRule_establishes hd hid htype hlib hshape hfits hrule
        | enumeration => exact enumRule_establishes hd hid htype hlib hshape hfits
        | object => exact objectRule_establishes hd hid htype hlib hshape hfits hrule
        | array => exact arrayRule_establishes hd hid hlib hshape hfits hrule
        | primitive p =>
          refine Follows.after (a := d.store.node id) rfl (Follows.pure ?_)
          exact ⟨.primitive hlib hshape, hkept⟩
        | any => exact Follows.pure ⟨.any hlib hshape, hkept⟩

end SchemaBeans.Drafting
