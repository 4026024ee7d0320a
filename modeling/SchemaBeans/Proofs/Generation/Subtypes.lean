import SchemaBeans.Proofs.Generation.Acts

/-! # Listed subtypes

The type of a union lists the branches that were linked to it. A link is made before the branch is
listed, so whatever is listed implements the interface or extends the class. A class that is still
being filled may be linked before it is known what its schema extends. This then takes the place of
the class of the union, and the list stays as it is. -/
namespace SchemaBeans.Drafting

variable {ctx : Context} {base : Nat} {d e : Draft} {marker child : TypeId}

/-- How a type stands to one that lists it. -/
structure Listed (ctx : Context) (d : Draft) (marker child : TypeId) : Prop where
  interface : (d.graph.get marker).kind = .interface → marker ∈ (d.graph.get child).interfaces
  superclass : (d.graph.get marker).kind ≠ .interface → ∃ supertype,
    (d.graph.get child).supertype = some supertype ∧
      (supertype = .generated marker ∨ Stated ctx d child supertype)

/-- Every type stands so to those that list it. -/
def Enlisted (ctx : Context) (d : Draft) : Prop :=
  ∀ marker child, child ∈ (d.graph.get marker).subtypes → Listed ctx d marker child

theorem has_of_subtypes {g : TypeGraph} (h : child ∈ (g.get marker).subtypes) : g.Has marker := by
  by_contra hnot
  rw [TypeGraph.get_of_not_has hnot] at h
  cases h

theorem Listed.after (hs : d.store.Sound) (ha : Act ctx base d e) (hmarker : d.graph.Has marker)
    (h : Listed ctx d marker child) : Listed ctx e marker child := by
  have hkind := ha.move.keeps.kind hmarker
  refine ⟨fun hinterface => ?_, fun hclass => ?_⟩
  · exact ha.ascends.interfaces child (h.interface (hkind ▸ hinterface))
  · obtain ⟨supertype, hsuper, hwhy⟩ := h.superclass (hkind ▸ hclass)
    rcases ha.supertype child supertype hsuper with hsame | ⟨stated, hstated, hnew⟩
    · refine ⟨supertype, hsame, hwhy.imp_right fun hold => ?_⟩
      exact hold.keeps hs ha.move.retains ha.move.keeps (has_of_supertype hsuper)
    · exact ⟨stated, hstated, .inr hnew⟩

theorem listed_linkBranch (hg : d.graph.Acyclic) (hmarker : d.graph.Has marker)
    (hchild : d.graph.Has child)
    (hlink : linkBranch d.graph marker (d.graph.get marker).kind child ≠
      d.graph) :
    Listed ctx { d with graph := linkBranch d.graph marker (d.graph.get marker).kind child } marker
      child := by
  obtain ⟨change, heq, hne, -, -, hsuper⟩ := (linkBranch_cases _ _ _ _).resolve_left hlink
  have hkind : ((linkBranch d.graph marker (d.graph.get marker).kind child).get marker).kind =
      (d.graph.get marker).kind := (keeps_linkBranch d.graph marker _ child).kind hmarker
  refine ⟨(joined_linkBranch hg hchild hne).interface, fun hclass => ?_⟩
  rcases hsuper with ⟨hinterface, -⟩ | ⟨-, -, hnew⟩
  · exact absurd (hkind.trans hinterface) hclass
  · refine ⟨.generated marker, ?_, .inl rfl⟩
    simp only [heq]
    rw [get_addSubtype TypeDecl.supertype fun _ _ => rfl, TypeGraph.get_update_self hchild, hnew]

theorem subtypes_linkBranch {g : TypeGraph} {kind : TypeKind} {other parent : TypeId}
    (h : other ∈ ((linkBranch g marker kind child).get parent).subtypes) :
    other ∈ (g.get parent).subtypes ∨
      parent = marker ∧ other = child ∧ linkBranch g marker kind child ≠ g := by
  by_cases hold : other ∈ (g.get parent).subtypes
  · exact .inl hold
  refine .inr ?_
  have hlink : linkBranch g marker kind child ≠ g := by
    intro hsame
    rw [hsame] at h
    exact hold h
  obtain ⟨change, heq, -, hsubtypes, -⟩ := (linkBranch_cases _ _ _ _).resolve_left hlink
  have hmid : ∀ id, ((g.update child change).get id).subtypes = (g.get id).subtypes :=
    fun id => TypeGraph.get_update_congr g child id TypeDecl.subtypes hsubtypes
  rw [heq] at h
  by_cases hparent : parent = marker
  · subst hparent
    have hhas := has_of_subtypes h
    rw [TypeGraph.get_update_self (by simpa using hhas)] at h
    refine ⟨rfl, (mem_addOnce.mp h).resolve_right fun hin => hold ?_, hlink⟩
    rwa [hmid] at hin
  · rw [TypeGraph.get_update_ne hparent, hmid] at h
    exact absurd h hold

theorem Act.listed (hd : Consistent d) (ha : Act ctx base d e)
    (h : child ∈ (e.graph.get marker).subtypes) :
    child ∈ (d.graph.get marker).subtypes ∨ Listed ctx e marker child := by
  cases ha.move with
  | schemas hs =>
    rw [hs.graph] at h
    exact .inl h
  | declare =>
    rcases TypeGraph.has_insert.mp (has_of_subtypes h) with hhas | rfl
    · rw [declared, TypeGraph.get_insert_of_has hhas] at h
      exact .inl h
    · rw [declared, TypeGraph.get_insert_self] at h
      cases h
  | extend | property | additional | constants =>
    refine .inl (Eq.mp (congrArg (child ∈ ·) ?_) h)
    exact TypeGraph.get_update_congr _ _ _ TypeDecl.subtypes fun _ => rfl
  | link hmarker hchild =>
    refine (subtypes_linkBranch h).imp_right ?_
    rintro ⟨rfl, rfl, hlink⟩
    exact listed_linkBranch hd.acyclic hmarker hchild hlink
  | family => exact .inl h

theorem Acts.enlisted (h : Acts ctx base d e) (hd : Consistent d) (henlisted : Enlisted ctx d) :
    Enlisted ctx e := by
  induction h with
  | refl => exact henlisted
  | @tail s t hds ha ih =>
    have hs : Consistent s := Acts.consistent hds hd
    intro marker child hchild
    rcases ha.listed hs hchild with hold | hnew
    · exact (ih marker child hold).after hs.store ha (has_of_subtypes hold)
    · exact hnew

theorem enlisted_empty : Enlisted ctx {} := by
  intro marker child hchild
  have hhas := has_of_subtypes hchild
  simp [TypeGraph.Has, TypeGraph.size] at hhas

end SchemaBeans.Drafting
