import SchemaBeans.Proofs.Discriminator.Bonds

/-! # Binding families

Binding gives a class its declared children as subclasses and overwrites no superclass. So the
superclass links afterwards are those from before and the declared ones, no more and no fewer. -/
namespace SchemaBeans.Family

open Drafting (Enrolled mem_addOnce)

/-- What binding does to a graph when it adds the given subclass links. -/
structure Gains (links : TypeId → TypeId → Prop) (g h : TypeGraph) : Prop where
  keeps : g.Keeps h
  size : h.size = g.size
  supertype : ∀ id, (h.get id).supertype = (g.get id).supertype ∨
    (g.get id).supertype = none ∧ ∃ parent, links id parent ∧
      (h.get id).supertype = some (.generated parent)
  added : ∀ id parent, links id parent → (h.get id).supertype = some (.generated parent)
  enrolled : Enrolled g → Enrolled h

section Gains

variable {links more : TypeId → TypeId → Prop} {g h i : TypeGraph}

theorem Gains.refl (g : TypeGraph) : Gains (fun _ _ => False) g g :=
  ⟨.refl g, rfl, fun _ => Or.inl rfl, fun _ _ h => h.elim, fun h => h⟩

theorem Gains.stays (hg : Gains links g h) {id : TypeId} (hid : (g.get id).supertype ≠ none) :
    (h.get id).supertype = (g.get id).supertype := by
  rcases hg.supertype id with hsame | ⟨hnone, _⟩
  · exact hsame
  · exact absurd hnone hid

theorem Gains.trans (hg : Gains links g h) (hh : Gains more h i) :
    Gains (fun id parent => links id parent ∨ more id parent) g i := by
  refine ⟨hg.keeps.trans hh.keeps, hh.size.trans hg.size, fun id => ?_, ?_,
    fun h => hh.enrolled (hg.enrolled h)⟩
  · rcases hg.supertype id with hsame | ⟨hnone, parent, hlink, hnew⟩
    · rcases hh.supertype id with hsame' | ⟨hnone', parent, hlink, hnew⟩
      · exact Or.inl (hsame'.trans hsame)
      · exact Or.inr ⟨hsame.symm.trans hnone', parent, Or.inr hlink, hnew⟩
    · refine Or.inr ⟨hnone, parent, Or.inl hlink, ?_⟩
      rw [hh.stays (by simp [hnew]), hnew]
  · rintro id parent (hlink | hlink)
    · have hnew := hg.added id parent hlink
      rw [hh.stays (by simp [hnew]), hnew]
    · exact hh.added id parent hlink

theorem Gains.congr (hg : Gains links g h)
    (hlinks : ∀ id parent, links id parent ↔ more id parent) : Gains more g h := by
  refine ⟨hg.keeps, hg.size, fun id => ?_, fun id parent hlink => ?_, hg.enrolled⟩
  · rcases hg.supertype id with hsame | ⟨hnone, parent, hlink, hnew⟩
    · exact Or.inl hsame
    · exact Or.inr ⟨hnone, parent, (hlinks id parent).mp hlink, hnew⟩
  · exact hg.added id parent ((hlinks id parent).mpr hlink)

theorem Gains.extends_iff (hg : Gains links g h) (a b : TypeId) :
    h.Extends a b ↔ g.Extends a b ∨ links a b := by
  rw [TypeGraph.extends_iff_supertype, TypeGraph.extends_iff_supertype]
  constructor
  · intro hafter
    rcases hg.supertype a with hsame | ⟨_, parent, hlink, hnew⟩
    · exact Or.inl (hsame.symm.trans hafter)
    · rw [hnew] at hafter
      cases hafter
      exact Or.inr hlink
  · rintro (hbefore | hlink)
    · rw [hg.stays (by simp [hbefore]), hbefore]
    · exact hg.added a b hlink

theorem Gains.kind (hg : Gains links g h) (id : TypeId) : (h.get id).kind = (g.get id).kind :=
  hg.keeps.part_eq hg.size id fun _ => rfl

end Gains

theorem declaredChild_has {g : TypeGraph} {child : ChildType} {id : TypeId} (hvalid : child.Valid g)
    (h : declaredChild g child = .ok id) : g.Has id := by
  unfold declaredChild at h
  split at h
  · rename_i type
    cases h
    exact hvalid _ rfl _ rfl
  · cases h
  · rename_i name
    split at h
    · rename_i found hfound
      cases h
      exact TypeGraph.find?_has hfound
    · cases h

theorem declaredChild_keeps {g h : TypeGraph} (hk : g.Keeps h) (hsize : h.size = g.size)
    (child : ChildType) : declaredChild h child = declaredChild g child := by
  unfold declaredChild
  split
  · rfl
  · rfl
  · rename_i name
    rw [hk.find? hsize]

theorem implicit_extends {g : TypeGraph} (hg : Enrolled g) {parent child : TypeId}
    (hbean : (g.get parent).kind = .bean) (hchild : child ∈ implicitChildren g parent) :
    (g.get child).supertype ≠ none := by
  unfold implicitChildren at hchild
  rcases List.mem_append.mp hchild with hknown | hother
  · exact hg parent child hbean hknown
  · obtain ⟨_, hother⟩ := List.mem_filter.mp hother
    rw [Bool.and_eq_true, beq_iff_eq] at hother
    simp [hother.1]

theorem has_of_supertype {g : TypeGraph} {id : TypeId} (h : (g.get id).supertype ≠ none) :
    g.Has id := by
  by_contra hn
  rw [TypeGraph.get_of_not_has hn] at h
  exact h rfl

/-- The family makes the first type a subclass of the second one: this is its parent, a class, and
the other one is among its declared children. -/
structure Declares (g : TypeGraph) (family : Family) (child owner : TypeId) : Prop where
  parent : owner = family.parent
  bean : (g.get owner).kind = .bean
  other : child ≠ owner
  listed : ∃ entry ∈ family.children, declaredChild g entry.1 = .ok child

theorem Binds.has_kid {family : Family} {g : TypeGraph} {b : Bond} (hb : family.Binds g b)
    (hvalid : family.Valid g) (himplicit : ∀ id ∈ implicitChildren g family.parent, g.Has id)
    {kid : TypeId} (hkid : kid ∈ b.kids) : g.Has kid := by
  rcases (hb.mem_kids.mp hkid).2 with ⟨entry, hentry, hid⟩ | ⟨-, hid⟩
  · exact declaredChild_has (hvalid.children entry hentry) hid
  · exact himplicit kid hid

/-- Binding a family adds the links that it declares. -/
theorem Binds.gains {family : Family} {g : TypeGraph} {b : Bond} (hb : family.Binds g b)
    (hg : Enrolled g) (hvalid : family.Valid g) : Gains (Declares g family) g (b.apply g) := by
  have hhas : b.kind = .bean → ∀ kid ∈ b.kids, g.Has kid := fun hbean kid hkid =>
    hb.has_kid hvalid
      (fun id hid => has_of_supertype (implicit_extends hg (hb.kind ▸ hbean) hid)) hkid
  have hadded : b.kind = .bean → ∀ kid ∈ b.kids,
      ((b.apply g).get kid).supertype = some (.generated b.parent) := fun hbean kid hkid => by
    rw [Bond.supertype_apply, if_pos ⟨hhas hbean kid hkid, hbean, hkid⟩]
  refine ⟨Bond.keeps_apply b g, Bond.size_apply, fun id => ?_, ?_, fun _ => ?_⟩
  · rcases hb.supertype id with hsame | ⟨hnone, hbean, hkid, hnew⟩
    · exact Or.inl hsame
    · rw [hb.kind] at hbean
      rw [hb.parent] at hnew
      -- What extends nothing does not count as a child yet, so the family declares it.
      obtain ⟨hother, hlisted | ⟨-, himplicit⟩⟩ := hb.mem_kids.mp hkid
      · exact Or.inr ⟨hnone, family.parent, ⟨rfl, hbean, hother, hlisted⟩, hnew⟩
      · exact absurd hnone (implicit_extends hg hbean himplicit)
  · rintro id parent ⟨rfl, hbean, hother, hlisted⟩
    rw [hadded (hb.kind.trans hbean) id (hb.mem_kids.mpr ⟨hother, Or.inl hlisted⟩), hb.parent]
  · refine hg.of_subtypes (fun id => Bond.kind_apply) (fun id hid => by rwa [hb.extends hid])
      fun owner kid hbean hsub => ?_
    rcases Bond.mem_subtypes_apply.mp hsub with hold | ⟨-, hparent, hkid⟩
    · exact Or.inl hold
    · rw [hparent, hb.parent, ← hb.kind] at hbean
      refine Or.inr ?_
      simp [hadded hbean kid hkid]

theorem Declares.congr {g h : TypeGraph} {links : TypeId → TypeId → Prop} (hgains : Gains links g h)
    (family : Family) (child owner : TypeId) :
    Declares h family child owner ↔ Declares g family child owner := by
  have hchild : ∀ entry : ChildType × Option String,
      declaredChild h entry.1 = declaredChild g entry.1 :=
    fun entry => declaredChild_keeps hgains.keeps hgains.size entry.1
  constructor
  · rintro ⟨hparent, hbean, hne, entry, hentry, hid⟩
    exact ⟨hparent, hgains.kind owner ▸ hbean, hne, entry, hentry, hchild entry ▸ hid⟩
  · rintro ⟨hparent, hbean, hne, entry, hentry, hid⟩
    exact ⟨hparent, (hgains.kind owner).symm ▸ hbean, hne, entry, hentry, (hchild entry).symm ▸ hid⟩

theorem bindAll_gains : ∀ {families : List Family} {g h : TypeGraph}, Enrolled g →
    (∀ family ∈ families, family.Valid g) → bindAll g families = .ok h →
    Gains (fun child owner => ∃ family ∈ families, Declares g family child owner) g h := by
  intro families
  induction families with
  | nil =>
    intro g h _ _ hbind
    cases hbind
    exact (Gains.refl g).congr (by simp)
  | cons family rest ih =>
    intro g h henrolled hvalid hbind
    unfold bindAll at hbind
    rw [List.foldlM_cons] at hbind
    obtain ⟨mid, hfirst, hbind⟩ := ok_of_bind hbind
    obtain ⟨b, hb, rfl⟩ := bind_iff.mp hfirst
    have hmid := hb.gains henrolled (hvalid family List.mem_cons_self)
    have hrest := ih (hmid.enrolled henrolled)
      (fun other hother => (hvalid other (List.mem_cons_of_mem _ hother)).keeps hmid.keeps) hbind
    refine (hmid.trans hrest).congr fun child owner => ?_
    simp only [Declares.congr hmid, List.exists_mem_cons_iff]

end SchemaBeans.Family
