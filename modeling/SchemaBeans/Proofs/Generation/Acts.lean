import SchemaBeans.Proofs.Generation.Ascent

/-! # What the rules take care of

The rules make their moves in an order that no single move shows. A class is given what it extends
while nothing but links placed it below other classes, and it notes a family once. So an act, as a
rule makes it, takes no type from below another one, and two waiting families never have one
parent. -/
namespace SchemaBeans

/-- A declaration without what stands inside it. -/
def TypeDecl.outline (d : TypeDecl) : TypeDecl :=
  { d with properties := [], constants := [], enumValueType :=
    .string, additionalProperties := none }

namespace Drafting

variable {ctx : Context} {base lo : Nat} {d e : Draft} {type : TypeId}

/-- The schema of the type names what the type extends, and this is what it generates. -/
def Stated (ctx : Context) (d : Draft) (type : TypeId) (supertype : TypeRef) : Prop :=
  ∃ id found k, d.store.id? (d.graph.get type).place = some id ∧
    (d.store.node id).keywords.superclass.isSome = true ∧ d.store.Found id ["extends"] found ∧
    Settles ctx d k found.id supertype

structure Act (ctx : Context) (base : Nat) (d e : Draft) : Prop where
  move : Move ctx base d e
  ascends : d.graph.Ascends e.graph
  supertype : ∀ id supertype, (d.graph.get id).supertype = some supertype →
    (e.graph.get id).supertype = some supertype ∨
      ∃ stated, (e.graph.get id).supertype = some stated ∧ Stated ctx e id stated
  families : e.families = d.families ∨ ∃ family, e.families = d.families ++ [family] ∧
    base ≤ family.parent.index ∧ family.parent ∉ d.families.map (·.parent)

/-- A row of acts. -/
def Acts (ctx : Context) (base : Nat) : Draft → Draft → Prop :=
  Relation.ReflTransGen (Act ctx base)

instance : IsPreorder Draft (Acts ctx base) where
  refl _ := Relation.ReflTransGen.refl
  trans _ _ _ h k := Relation.ReflTransGen.trans h k

theorem Stated.keeps {supertype : TypeRef} (hs : d.store.Sound) (hr : Retains d e)
    (hk : d.graph.Keeps e.graph) (htype : d.graph.Has type) (h : Stated ctx d type supertype) :
    Stated ctx e type supertype := by
  obtain ⟨id, found, k, hid, hsuper, hfound, ht⟩ := h
  have hhas := hs.bound hid
  refine ⟨id, found, k, ?_, ?_, hfound.grows hs hhas hr.grows, ht.keeps hs hr (hfound.has hs)⟩
  · rw [hk.place htype]
    exact hr.grows.index hid
  · rw [hr.grows.node hhas]
    exact hsuper

theorem has_of_supertype {g : TypeGraph} {id : TypeId} {supertype : TypeRef}
    (h : (g.get id).supertype = some supertype) : g.Has id := by
  by_contra hnot
  rw [TypeGraph.get_of_not_has hnot] at h
  cases h

/-- A link adds a superclass only where there is none. -/
theorem supertype_linkBranch {g : TypeGraph} {id : TypeId} {supertype : TypeRef}
    (marker : TypeId) (kind : TypeKind) (child : TypeId)
    (h : (g.get id).supertype = some supertype) :
    ((linkBranch g marker kind child).get id).supertype = some supertype := by
  unfold linkBranch
  dsimp only
  split
  · exact h
  split
  · rw [get_addSubtype TypeDecl.supertype fun _ _ => rfl]
    refine Eq.trans ?_ h
    exact TypeGraph.get_update_congr _ _ _ TypeDecl.supertype fun _ => rfl
  split
  · exact h
  split
  · rename_i hnone
    have hne : id ≠ child := by
      rintro rfl
      rw [hnone] at h
      cases h
    rw [get_addSubtype TypeDecl.supertype fun _ _ => rfl, TypeGraph.get_update_ne hne]
    exact h
  · split
    · rw [get_addSubtype TypeDecl.supertype fun _ _ => rfl]
      exact h
    · exact h

theorem act_schemas (h : Scans d e) : Act ctx base d e :=
  ⟨.schemas h, by rw [h.graph]; exact refl _, fun _ _ hs => .inl (by rw [h.graph]; exact hs),
    .inl h.families⟩

theorem act_declare {request : Request} {id : NodeId} {kind : TypeKind}
    (h : Declarable ctx d request id kind) : Act ctx base d (declared ctx d request id kind) := by
  refine ⟨.declare h, TypeGraph.ascends_insert, fun other supertype hs => .inl ?_, .inl rfl⟩
  rw [declared, TypeGraph.get_insert_of_has (has_of_supertype hs)]
  exact hs

theorem act_update {change : TypeDecl → TypeDecl} (hm : Move ctx base d (updated d type change))
    (houtline : ∀ t, (change t).outline = t.outline) : Act ctx base d (updated d type change) := by
  have hpart : ∀ {α : Type} (part : TypeDecl → α), (∀ t, part t.outline = part t) →
      ∀ t, part (change t) = part t := by
    intro α part hpart t
    rw [← hpart, houtline, hpart]
  have hinterfaces := hpart TypeDecl.interfaces (fun _ => rfl) (d.graph.get type)
  have hsubtypes := hpart TypeDecl.subtypes (fun _ => rfl) (d.graph.get type)
  refine ⟨hm, TypeGraph.ascends_update (hpart TypeDecl.head fun _ => rfl) ?_ ?_
    (.inl (hpart TypeDecl.supertype (fun _ => rfl) _)), fun id supertype hs => .inl ?_, .inl rfl⟩
  · rw [hinterfaces]
    exact List.Subset.refl _
  · rw [hsubtypes]
    exact List.Subset.refl _
  · refine Eq.trans ?_ hs
    exact TypeGraph.get_update_congr _ _ _ TypeDecl.supertype
      (hpart TypeDecl.supertype fun _ => rfl)

theorem act_extend {supertype : TypeRef} (hs : d.store.Sound) (hbase : base ≤ type.index)
    (h : Extendable d.graph type supertype) (hloose : d.graph.Loose type)
    (hstated : Stated ctx d type supertype) :
    Act ctx base d (updated d type fun t => { t with supertype := some supertype }) := by
  have hm : Move ctx base d (updated d type fun t => { t with supertype := some supertype }) :=
    .extend hbase h
  refine ⟨hm, ascends_setSupertype hloose supertype, fun other old hold => ?_, .inl rfl⟩
  have hhas := has_of_supertype hold
  by_cases hother : other = type
  · subst hother
    have hset : ((updated d other fun t => { t with supertype := some supertype }).graph.get
        other).supertype = some supertype := by
      rw [updated, TypeGraph.get_update_self hhas]
    exact .inr ⟨supertype, hset, hstated.keeps hs hm.retains hm.keeps hhas⟩
  · refine .inl ?_
    rw [updated, TypeGraph.get_update_ne hother]
    exact hold

theorem act_link {marker child : TypeId} (hmarker : d.graph.Has marker)
    (hchild : d.graph.Has child) : Act ctx base d
      { d with graph := linkBranch d.graph marker (d.graph.get marker).kind child } :=
  ⟨.link hmarker hchild, ascends_linkBranch _ _ _ _,
    fun _ _ hs => .inl (supertype_linkBranch _ _ _ hs), .inl rfl⟩

theorem act_family {family : Family} (hvalid : family.Valid d.graph)
    (hbase : base ≤ family.parent.index) (hnew : family.parent ∉ d.families.map (·.parent)) :
    Act ctx base d { d with families := d.families ++ [family] } :=
  ⟨.family hvalid, refl d.graph, fun _ _ hs => .inl hs, .inr ⟨family, rfl, hbase, hnew⟩⟩

theorem Act.lower (hle : lo ≤ base) (h : Act ctx base d e) : Act ctx lo d e := by
  refine ⟨h.move.lower hle, h.ascends, h.supertype, ?_⟩
  rcases h.families with hsame | ⟨family, heq, hbase, hnew⟩
  · exact .inl hsame
  · exact .inr ⟨family, heq, Nat.le_trans hle hbase, hnew⟩

namespace Acts

theorem lower (hle : lo ≤ base) (h : Acts ctx base d e) : Acts ctx lo d e :=
  Relation.ReflTransGen.mono (fun _ _ ha => ha.lower hle) _ _ h

theorem leads (h : Acts ctx base d e) : Leads ctx base d e :=
  Relation.ReflTransGen.mono (fun _ _ ha => ha.move) _ _ h

theorem keeps (h : Acts ctx base d e) : d.graph.Keeps e.graph := h.leads.keeps

theorem retains (h : Acts ctx base d e) : Retains d e := h.leads.retains

theorem consistent (h : Acts ctx base d e) (hd : Consistent d) : Consistent e :=
  h.leads.consistent hd

theorem ascends (h : Acts ctx base d e) : d.graph.Ascends e.graph := by
  induction h with
  | refl => exact refl _
  | tail _ ha ih => exact IsTrans.trans _ _ _ ih ha.ascends

end Acts

/-- Whatever comes to stand above a type that is not being filled lists it. -/
theorem Act.loose (h : Act ctx base d e) (hlt : type.index < base) (hd : d.graph.Loose type) :
    e.graph.Loose type := by
  refine hd.ascends h.ascends fun b hb => ?_
  cases h.move with
  | schemas h =>
    rw [h.graph] at hb
    exact .inl hb
  | declare =>
    rcases TypeGraph.has_insert.mp (TypeGraph.Extends.has hb) with hhas | rfl
    · unfold TypeGraph.Extends at *
      rw [declared, TypeGraph.get_insert_of_has hhas] at hb
      exact .inl hb
    · unfold TypeGraph.Extends at hb
      rw [declared, TypeGraph.get_insert_self] at hb
      cases hb
  | extend hbase =>
    rcases TypeGraph.extends_update hb with hold | ⟨rfl, -⟩
    · exact .inl hold
    · exact absurd hbase (Nat.not_le.mpr hlt)
  | property | additional | constants =>
    rcases TypeGraph.extends_update hb with hold | ⟨rfl, hsame⟩
    · exact .inl hold
    · exact .inl hsame
  | link hmarker => exact extends_linkBranch hmarker hb
  | family => exact .inl hb

theorem Acts.loose (h : Acts ctx base d e) (hlt : type.index < base) (hd : d.graph.Loose type) :
    e.graph.Loose type := by
  induction h with
  | refl => exact hd
  | tail _ ha ih => exact ha.loose hlt ih

theorem Acts.unclaimed (h : Acts ctx base d e) (hlt : type.index < base)
    (hd : type ∉ d.families.map (·.parent)) : type ∉ e.families.map (·.parent) := by
  induction h with
  | refl => exact hd
  | tail _ ha ih =>
    rcases ha.families with hsame | ⟨family, heq, hbase, -⟩
    · rwa [hsame]
    · rw [heq, List.map_append, List.mem_append]
      rintro (hold | hnew)
      · exact ih hold
      · rw [List.map_singleton, List.mem_singleton] at hnew
        rw [hnew] at hlt
        exact absurd hbase (Nat.not_le.mpr hlt)

theorem Acts.claimed (h : Acts ctx base d e) (hd : (d.families.map (·.parent)).Nodup) :
    (e.families.map (·.parent)).Nodup := by
  induction h with
  | refl => exact hd
  | tail _ ha ih =>
    rcases ha.families with hsame | ⟨family, heq, -, hnew⟩
    · rwa [hsame]
    · rw [heq, List.map_append, List.map_singleton]
      exact List.nodup_append_comm.mp (List.nodup_cons.mpr ⟨hnew, ih⟩)

end Drafting

end SchemaBeans
