import SchemaBeans.Proofs.Generation.Moves
import SchemaBeans.Proofs.TypeGraph.Naming

/-! # Consistent states

Between any two moves the types and the names given away tell the same story: every type has a name
and a place of its own, stands in an earlier type or in none, and was declared for the schema of its
place. No type inherits from itself, and whatever a class counts as its subtype extends
something. -/
namespace SchemaBeans.Drafting

variable {ctx : Context} {base : Nat} {d e : Draft}

/-- The registry holds the name, the number and the place of every type, and nothing else. -/
def Named (d : Draft) : Prop :=
  ∀ name id place, d.registry.slots.lookup name = some (id, place) ↔
    d.graph.Has id ∧ d.graph.qualifiedName id = name ∧ (d.graph.get id).place = place

theorem Named.distinct (h : Named d) (a b : TypeId) (ha : d.graph.Has a) (hb : d.graph.Has b)
    (hname : d.graph.qualifiedName a = d.graph.qualifiedName b) : a = b := by
  have hslot := (h _ a _).mpr ⟨ha, hname, rfl⟩
  rw [(h _ b _).mpr ⟨hb, rfl, rfl⟩] at hslot
  cases hslot
  rfl

/-- The subtypes of a class extend something. -/
def Enrolled (g : TypeGraph) : Prop :=
  ∀ parent child, (g.get parent).kind = .bean → child ∈ (g.get parent).subtypes →
    (g.get child).supertype ≠ none

structure Consistent (d : Draft) : Prop where
  store : d.store.Sound
  declared : Declared d
  nests : d.graph.Nests
  placed : d.graph.Placed
  named : Named d
  acyclic : d.graph.Acyclic
  enrolled : Enrolled d.graph
  families : ∀ family ∈ d.families, family.Valid d.graph

section Slots

variable {settings : Settings} {g : TypeGraph} {request : Request} {keywords : Keywords}

/-- A nested type goes where its request says, into the package found there. -/
theorem slot_enclosing {owner : TypeId}
    (h : (slot settings g request keywords).enclosing = some owner) :
    request.placement = .inside owner ∧
      (slot settings g request keywords).package = (g.get owner).package := by
  unfold slot at h ⊢
  split at h
  · split at h <;> cases h
  · split at h
    · cases h
    · rename_i hplacement
      cases h
      simp [hplacement]

theorem has_owner (hfits : request.Fits g) {owner : TypeId}
    (h : (slot settings g request keywords).enclosing = some owner) : g.Has owner :=
  hfits owner (slot_enclosing h).1

/-- The name that was checked is the name that the type then has. -/
theorem qualifiedName_insert {decl : TypeDecl} (hnests : (g.insert decl).2.Nests) (hg : g.Nests)
    (hfits : request.Fits g)
    (hpackage : decl.package = (slot settings g request keywords).package)
    (hname : decl.name = (slot settings g request keywords).name)
    (henclosing : decl.enclosing = (slot settings g request keywords).enclosing) :
    (g.insert decl).2.qualifiedName ⟨g.size⟩ = (slot settings g request keywords).qualified g := by
  have hnew : (g.insert decl).2.Has ⟨g.size⟩ := TypeGraph.has_insert.mpr (Or.inr rfl)
  have hget := TypeGraph.get_insert_self g decl
  unfold Slot.qualified
  cases howner : (slot settings g request keywords).enclosing with
  | none =>
    rw [TypeGraph.qualifiedName_topLevel hnests hnew (by rw [hget, henclosing, howner]), hget,
      hpackage, hname]
  | some owner =>
    have ho := has_owner hfits howner
    have hold := TypeGraph.get_insert_of_has ho decl
    have henclosed : ((g.insert decl).2.get ⟨g.size⟩).enclosing = some owner := by
      rw [hget, henclosing, howner]
    rw [TypeGraph.qualifiedName_nested hnests hnew henclosed]
    · rw [(TypeGraph.keeps_insert g decl).qualifiedName hg hnests ho, hget, hname]
    · rw [hget, hold, hpackage, (slot_enclosing howner).2]

end Slots

theorem claim_vacant {registry : NameRegistry} {name : String} {place : Location} :
    registry.claim name place = .ok .vacant ↔ registry.slots.lookup name = none := by
  unfold NameRegistry.claim
  split
  · simp [*]
  · split <;> simp [*]

theorem Move.declares_or (h : Move ctx base d e) :
    (∃ request id kind, Declarable ctx d request id kind ∧ e = declared ctx d request id kind) ∨
      (e.graph.size = d.graph.size ∧ e.registry = d.registry) := by
  cases h with
  | schemas h => exact Or.inr ⟨by rw [h.graph], h.registry⟩
  | declare h => exact Or.inl ⟨_, _, _, h, rfl⟩
  | extend | property | additional | constants => exact Or.inr ⟨TypeGraph.size_update _ _ _, rfl⟩
  | link => exact Or.inr ⟨size_linkBranch _ _ _ _, rfl⟩
  | family => exact Or.inr ⟨rfl, rfl⟩

theorem Move.declared (h : Move ctx base d e) (hs : d.store.Sound) (hd : Declared d) :
    Declared e := by
  have hr := h.retains.toRemembers
  have hold : ∀ type, d.graph.Has type → ∃ id, e.store.id? (e.graph.get type).place = some id ∧
      (e.store.node id).location = (e.graph.get type).place ∧ library? (e.store.node id) = none ∧
      Makes e id (e.graph.get type).kind := by
    intro type htype
    obtain ⟨id, hid, hplace, hlib, hmakes⟩ := hd type htype
    have hhas := hs.bound hid
    rw [h.keeps.place htype, h.keeps.kind htype]
    refine ⟨id, hr.grows.index hid, ?_, ?_, hmakes.keeps hs hhas hr⟩
    · rw [hr.grows.node hhas, hplace]
    · rw [hr.grows.node hhas, hlib]
  intro type htype
  rcases h.declares_or with ⟨request, id, kind, hdecl, rfl⟩ | ⟨hsize, _⟩
  · rcases TypeGraph.has_insert.mp htype with hin | rfl
    · exact hold type hin
    · have hget := TypeGraph.get_insert_self d.graph
      refine ⟨id, ?_, ?_, hdecl.library, ?_⟩
      · simp only [Drafting.declared, hget]
        exact hs.own hdecl.has
      · simp only [Drafting.declared, hget]
      · simp only [Drafting.declared, hget]
        exact hdecl.makes.keeps hs hdecl.has hr
  · exact hold type ((TypeGraph.has_of_size hsize).mp htype)

theorem Move.nests (h : Move ctx base d e) (hd : d.graph.Nests) : e.graph.Nests := by
  rcases h.declares_or with ⟨request, node, kind, hdecl, rfl⟩ | ⟨hsize, -⟩
  · exact hd.insert rfl fun _ howner => has_owner hdecl.fits howner
  · exact h.keeps.nests hsize hd

theorem Move.placed (h : Move ctx base d e) (hd : d.graph.Placed) : e.graph.Placed := by
  rcases h.declares_or with ⟨request, node, kind, hdecl, rfl⟩ | ⟨hsize, _⟩
  · exact hd.insert hdecl.place
  · exact hd.keeps h.keeps hsize

theorem Move.named (h : Move ctx base d e) (hnests : d.graph.Nests) (hd : Named d) : Named e := by
  have hnests' := h.nests hnests
  intro name id place
  rcases h.declares_or with ⟨request, node, kind, hdecl, rfl⟩ | ⟨hsize, hregistry⟩
  · let slot := slot ctx.settings d.graph request (d.store.node node).keywords
    have hnew : (Drafting.declared ctx d request node kind).graph.qualifiedName ⟨d.graph.size⟩ =
        slot.qualified d.graph :=
      qualifiedName_insert hnests' hnests hdecl.fits rfl rfl rfl
    have hplace : ((Drafting.declared ctx d request node kind).graph.get ⟨d.graph.size⟩).place =
        (d.store.node node).location := by
      simp only [Drafting.declared, TypeGraph.get_insert_self]
    have hlookup : (Drafting.declared ctx d request node kind).registry.slots.lookup name =
        if name = slot.qualified d.graph then
          some (⟨d.graph.size⟩, (d.store.node node).location)
        else d.registry.slots.lookup name := by
      show List.lookup name ((slot.qualified d.graph, _) :: d.registry.slots) = _
      rw [List.lookup_cons]
      by_cases hq : name = slot.qualified d.graph
      · simp [hq]
      · simp [hq, beq_eq_false_iff_ne.mpr hq]
    have hfresh := claim_vacant.mp hdecl.claim
    rw [hlookup]
    constructor
    · intro hget
      split at hget
      · rename_i hq
        cases hget
        exact ⟨TypeGraph.has_insert.mpr (Or.inr rfl), hnew.trans hq.symm, hplace⟩
      · obtain ⟨hid, hname, hat⟩ := (hd name id place).mp hget
        refine ⟨h.keeps.has hid, ?_, ?_⟩
        · rw [h.keeps.qualifiedName hnests hnests' hid, hname]
        · rw [h.keeps.place hid, hat]
    · rintro ⟨hid, hname, hat⟩
      rcases TypeGraph.has_insert.mp hid with hin | rfl
      · rw [h.keeps.qualifiedName hnests hnests' hin] at hname
        rw [h.keeps.place hin] at hat
        have hget := (hd name id place).mpr ⟨hin, hname, hat⟩
        rw [if_neg fun hq => ?_]
        · exact hget
        · rw [hq, hfresh] at hget
          cases hget
      · rw [if_pos (hname.symm.trans hnew), ← hplace, hat]
  · rw [hregistry, hd name id place, TypeGraph.has_of_size hsize]
    constructor
    · rintro ⟨hid, hname, hplace⟩
      exact ⟨hid, by rw [h.keeps.qualifiedName hnests hnests' hid, hname],
        by rw [h.keeps.place hid, hplace]⟩
    · rintro ⟨hid, hname, hplace⟩
      rw [h.keeps.qualifiedName hnests hnests' hid] at hname
      rw [h.keeps.place hid] at hplace
      exact ⟨hid, hname, hplace⟩

/-- What linking a branch does: nothing, or one link and an entry at the type of the union. -/
theorem linkBranch_cases (g : TypeGraph) (marker : TypeId) (kind : TypeKind) (child : TypeId) :
    linkBranch g marker kind child = g ∨
      ∃ change : TypeDecl → TypeDecl,
        linkBranch g marker kind child = (g.update child change).update marker
          (fun t => { t with subtypes := Family.addOnce child t.subtypes }) ∧
        child ≠ marker ∧ (∀ t, (change t).subtypes = t.subtypes) ∧ (∀ t, (change t).kind = t.kind) ∧
        ((kind = .interface ∧ ∀ t, (change t).supertype = t.supertype) ∨
          (kind ≠ .interface ∧ g.inherits marker child = false ∧
            (change (g.get child)).supertype = some (.generated marker))) := by
  unfold linkBranch
  by_cases hsame : child = marker
  · rw [if_pos hsame]
    exact Or.inl rfl
  · rw [if_neg hsame]
    by_cases hkind : kind = .interface
    · simp only [if_pos hkind]
      exact Or.inr ⟨_, rfl, hsame, fun _ => rfl, fun _ => rfl, Or.inl ⟨hkind, fun _ => rfl⟩⟩
    · simp only [if_neg hkind]
      by_cases hinherits : g.inherits marker child = true
      · rw [if_pos hinherits]
        exact Or.inl rfl
      · rw [if_neg hinherits]
        have hfree : g.inherits marker child = false := by simpa using hinherits
        cases hsuper : (g.get child).supertype with
        | none =>
          exact Or.inr ⟨_, rfl, hsame, fun _ => rfl, fun _ => rfl, Or.inr ⟨hkind, hfree, rfl⟩⟩
        | some supertype =>
          by_cases hmarker : supertype = .generated marker
          · refine Or.inr ⟨fun t => t, ?_, hsame, fun _ => rfl, fun _ => rfl,
              Or.inr ⟨hkind, hfree, hsuper.trans (congrArg some hmarker)⟩⟩
            simp only [if_pos hmarker]
            rw [TypeGraph.update_unchanged]
          · refine Or.inl ?_
            simp only [if_neg hmarker]

theorem Move.acyclic (h : Move ctx base d e) (hd : d.graph.Acyclic) : e.graph.Acyclic := by
  cases h with
  | schemas h =>
    rw [h.graph]
    exact hd
  | declare => exact TypeGraph.acyclic_insert hd rfl
  | @extend type supertype _ h =>
    cases h with
    | library name =>
      refine hd.of_extends fun a b hab => ?_
      rcases TypeGraph.extends_update hab with hold | ⟨_, hnew⟩
      · exact hold
      · cases hnew
    | generated _ _ hfree => exact hd.update_superclass rfl hfree
  | property | additional | constants => exact hd.update _ rfl
  | @link marker child =>
    rcases linkBranch_cases d.graph marker (d.graph.get marker).kind child with hsame | hlink
    · rw [hsame]
      exact hd
    · obtain ⟨change, heq, _, _, _, hsuper⟩ := hlink
      rw [heq]
      refine TypeGraph.Acyclic.update ?_ _ rfl
      rcases hsuper with ⟨_, hkeep⟩ | ⟨_, hfree, hnew⟩
      · exact hd.update _ (by simp only [TypeDecl.superclass?, hkeep])
      · exact hd.update_superclass (by simp only [TypeDecl.superclass?, hnew]) hfree
  | family => exact hd

theorem mem_addOnce {id other : TypeId} {ids : List TypeId} :
    other ∈ Family.addOnce id ids ↔ other = id ∨ other ∈ ids := by
  unfold Family.addOnce
  by_cases h : ids.contains id = true
  · rw [if_pos h]
    constructor
    · exact Or.inr
    · rintro (rfl | h')
      · simpa using h
      · exact h'
  · rw [if_neg h, List.mem_append, List.mem_singleton, or_comm]

/-- Whatever extends something goes on to, so only a new subtype has to be looked at. -/
theorem Enrolled.of_subtypes {g h : TypeGraph} (hg : Enrolled g)
    (hkind : ∀ id, (h.get id).kind = (g.get id).kind)
    (hsuper : ∀ id, (g.get id).supertype ≠ none → (h.get id).supertype ≠ none)
    (hsub : ∀ parent child, (g.get parent).kind = .bean → child ∈ (h.get parent).subtypes →
      child ∈ (g.get parent).subtypes ∨ (h.get child).supertype ≠ none) : Enrolled h := by
  intro parent child hbean hchild
  rw [hkind] at hbean
  rcases hsub parent child hbean hchild with hold | hnew
  · exact hsuper child (hg parent child hbean hold)
  · exact hnew

theorem Enrolled.update {g : TypeGraph} (hg : Enrolled g) (id : TypeId)
    {change : TypeDecl → TypeDecl} (hkind : ∀ t, (change t).kind = t.kind)
    (hsub : ∀ t, (change t).subtypes = t.subtypes)
    (hsuper : (g.get id).supertype ≠ none → (change (g.get id)).supertype ≠ none) :
    Enrolled (g.update id change) := by
  refine hg.of_subtypes (fun other => TypeGraph.get_update_congr g id other TypeDecl.kind hkind)
    (fun other hother => ?_) fun parent child _ hchild => ?_
  · by_cases he : other = id
    · subst he
      by_cases hhas : g.Has other
      · rw [TypeGraph.get_update_self hhas]
        exact hsuper hother
      · rw [TypeGraph.get_of_not_has hhas] at hother
        exact absurd rfl hother
    · rw [TypeGraph.get_update_ne he]
      exact hother
  · rw [TypeGraph.get_update_congr g id parent TypeDecl.subtypes hsub] at hchild
    exact Or.inl hchild

theorem enrolled_insert {g : TypeGraph} (hg : Enrolled g) {decl : TypeDecl}
    (hd : decl.subtypes = []) : Enrolled (g.insert decl).2 := by
  intro parent child hbean hchild
  by_cases hparent : g.Has parent
  · rw [TypeGraph.get_insert_of_has hparent] at hbean hchild
    have hsuper := hg parent child hbean hchild
    have hhas : g.Has child := by
      by_contra hnot
      rw [TypeGraph.get_of_not_has hnot] at hsuper
      exact hsuper rfl
    rw [TypeGraph.get_insert_of_has hhas]
    exact hsuper
  · have hnone : ((g.insert decl).2.get parent).subtypes = [] := by
      by_cases hnew : parent = ⟨g.size⟩
      · rw [hnew, TypeGraph.get_insert_self, hd]
      · rw [TypeGraph.get_of_not_has fun h => (TypeGraph.has_insert.mp h).elim hparent hnew]
    rw [hnone] at hchild
    cases hchild

theorem get_addSubtype {α : Type} (part : TypeDecl → α)
    (hpart : ∀ t x, part { t with subtypes := x } = part t) (g : TypeGraph)
    (parent child id : TypeId) :
    part ((g.update parent fun t =>
      { t with subtypes := Family.addOnce child t.subtypes }).get id) = part (g.get id) :=
  TypeGraph.get_update_congr _ _ _ part fun t => hpart t _

theorem Enrolled.addSubtype {g : TypeGraph} (hg : Enrolled g) {parent child : TypeId}
    (hchild : (g.get parent).kind = .bean → (g.get child).supertype ≠ none) :
    Enrolled (g.update parent fun t => { t with subtypes := Family.addOnce child t.subtypes }) := by
  have hsuper := get_addSubtype TypeDecl.supertype (fun _ _ => rfl) g parent child
  refine hg.of_subtypes (get_addSubtype TypeDecl.kind (fun _ _ => rfl) g parent child)
    (fun id hid => by rwa [hsuper]) fun other c hbean hc => ?_
  rw [hsuper]
  by_cases hother : other = parent
  · subst hother
    by_cases hhas : g.Has other
    · rw [TypeGraph.get_update_self hhas] at hc
      rcases mem_addOnce.mp hc with rfl | hold
      · exact Or.inr (hchild hbean)
      · exact Or.inl hold
    · rw [TypeGraph.get_of_not_has (by simpa using hhas)] at hc
      cases hc
  · rw [TypeGraph.get_update_ne hother] at hc
    exact Or.inl hc

theorem enrolled_linkBranch {g : TypeGraph} (hg : Enrolled g) {marker child : TypeId}
    (hchild : g.Has child) : Enrolled (linkBranch g marker (g.get marker).kind child) := by
  rcases linkBranch_cases g marker (g.get marker).kind child with hsame | hlink
  · rw [hsame]
    exact hg
  · obtain ⟨change, heq, hne, hsubtypes, hkind, hsuper⟩ := hlink
    have hmid : Enrolled (g.update child change) := by
      refine hg.update child hkind hsubtypes fun hold => ?_
      rcases hsuper with ⟨_, hkeep⟩ | ⟨_, _, hnew⟩
      · rw [hkeep]
        exact hold
      · simp [hnew]
    rw [heq]
    refine hmid.addSubtype fun hbean => ?_
    rw [TypeGraph.get_update_ne (Ne.symm hne)] at hbean
    rcases hsuper with ⟨hinterface, _⟩ | ⟨_, _, hnew⟩
    · rw [hbean] at hinterface
      cases hinterface
    · rw [TypeGraph.get_update_self hchild, hnew]
      simp

theorem Move.enrolled (h : Move ctx base d e) (hd : Enrolled d.graph) : Enrolled e.graph := by
  cases h with
  | schemas h =>
    rw [h.graph]
    exact hd
  | declare => exact enrolled_insert hd rfl
  | extend => exact hd.update _ (fun _ => rfl) (fun _ => rfl) fun _ => by simp
  | property | additional | constants => exact hd.update _ (fun _ => rfl) (fun _ => rfl) fun h => h
  | link _ hchild => exact enrolled_linkBranch hd hchild
  | family => exact hd

theorem Move.families (h : Move ctx base d e) (hd : ∀ family ∈ d.families, family.Valid d.graph) :
    ∀ family ∈ e.families, family.Valid e.graph := by
  have hkept : ∀ family ∈ d.families, family.Valid e.graph :=
    fun family hfamily => (hd family hfamily).keeps h.keeps
  cases h with
  | schemas h =>
    rw [h.families]
    exact hkept
  | family hvalid =>
    intro family hfamily
    rcases List.mem_append.mp hfamily with hold | hnew
    · exact hkept family hold
    · rw [List.mem_singleton.mp hnew]
      exact hvalid
  | _ => exact hkept

theorem Move.consistent (h : Move ctx base d e) (hd : Consistent d) : Consistent e where
  store := h.retains.grows.sound hd.store
  declared := h.declared hd.store hd.declared
  nests := h.nests hd.nests
  placed := h.placed hd.placed
  named := h.named hd.nests hd.named
  acyclic := h.acyclic hd.acyclic
  enrolled := h.enrolled hd.enrolled
  families := h.families hd.families

theorem Leads.consistent (h : Leads ctx base d e) (hd : Consistent d) : Consistent e := by
  induction h with
  | refl => exact hd
  | tail _ hm ih => exact hm.consistent ih

theorem consistent_empty : Consistent {} := by
  have hnot : ∀ id, ¬ (({} : Draft).graph).Has id := fun id h => by
    simp [TypeGraph.Has, TypeGraph.size] at h
  refine ⟨⟨?_, ?_⟩, ?_, ?_, ?_, ?_, TypeGraph.acyclic_empty, ?_, ?_⟩
  · intro place id h
    cases h
  · intro id h
    simp [Store.Has] at h
  · exact fun type h => absurd h (hnot type)
  · exact ⟨fun id _ h => absurd h (hnot id), fun _ => rfl⟩
  · exact fun place id => iff_of_false (fun h => by cases h) fun h => hnot id h.1
  · intro name id place
    constructor
    · intro h
      cases h
    · exact fun h => absurd h.1 (hnot id)
  · intro parent child _ hchild
    rw [TypeGraph.get_of_not_has (hnot parent)] at hchild
    cases hchild
  · intro family h
    cases h

end SchemaBeans.Drafting
