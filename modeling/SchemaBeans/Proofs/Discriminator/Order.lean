import Mathlib.Tactic.MkIffOfInductiveProp
import Mathlib.Data.List.Perm.Basic
import SchemaBeans.Proofs.Discriminator.Binding

/-! # Families in any order

A bond reads of its parent only what no other parent's bond writes: its subtypes, and which types
extend it. So families with different parents can be bound in any order. They stand in each other's
way only where two classes claim one type, and then they do so in every order. -/
namespace SchemaBeans

variable {g h : TypeGraph} {id : TypeId} {b c : Bond}

/-- The bonds have different parents, and no type is to extend both. -/
structure Bond.Apart (g : TypeGraph) (b c : Bond) : Prop where
  parents : b.parent ≠ c.parent
  kids : ¬ (b.kind = .bean ∧ c.kind = .bean ∧ ∃ kid, kid ∈ b.kids ∧ kid ∈ c.kids ∧ g.Has kid)

theorem Bond.Apart.symm (h : b.Apart g c) : c.Apart g b :=
  ⟨h.parents.symm, fun ⟨hc, hb, kid, hkidc, hkidb, hhas⟩ =>
    h.kids ⟨hb, hc, kid, hkidb, hkidc, hhas⟩⟩

theorem Bond.apart_apply {a : Bond} : b.Apart (a.apply g) c ↔ b.Apart g c := by
  constructor <;> exact fun h => ⟨h.parents, by simpa using h.kids⟩

/-- What becomes of a type under one bond after the other. -/
def Bond.changes (bonds : List Bond) (id : TypeId) (d : TypeDecl) : TypeDecl :=
  bonds.foldl (fun d b => b.change id d) d

namespace Family

variable {family other : Family}

theorem implicitChildren_apply (hb : other.Binds g b) (hne : id ≠ other.parent) :
    implicitChildren (b.apply g) id = implicitChildren g id := by
  have hids : (b.apply g).ids = g.ids := by simp [TypeGraph.ids]
  have hsubtypes := Bond.subtypes_apply (g := g) (hb.parent ▸ hne)
  have hextends : ∀ kid, ((b.apply g).get kid).supertype = some (.generated id) ↔
      (g.get kid).supertype = some (.generated id) := by
    intro kid
    rcases hb.supertype kid with hsame | ⟨hnone, -, -, hnew⟩
    · rw [hsame]
    · have hfree : b.parent ≠ id := hb.parent ▸ Ne.symm hne
      simp [hnone, hnew, hfree]
  unfold implicitChildren
  simp only [hids, hsubtypes]
  congr 1
  refine List.filter_congr fun kid _ => ?_
  rw [Bool.eq_iff_iff]
  simp only [Bool.and_eq_true, beq_iff_eq, hextends]

theorem members_apply (hb : other.Binds g b) (hne : family.parent ≠ other.parent) :
    members family (b.apply g) = members family g := by
  have hchild : declaredChild (b.apply g) = declaredChild g :=
    funext fun child => declaredChild_keeps (Bond.keeps_apply b g) Bond.size_apply child
  unfold members
  rw [hchild, implicitChildren_apply hb hne]

theorem admits_apply (hb : other.Binds g b) {parent kid : TypeId} (hne : parent ≠ other.parent) :
    Admits (b.apply g) parent kid ↔ Admits g parent kid ∧
      ¬ (b.kind = .bean ∧ (g.get parent).kind = .bean ∧ kid ∈ b.kids ∧ g.Has kid) := by
  have hfree : b.parent ≠ parent := hb.parent ▸ Ne.symm hne
  unfold Admits
  rw [Bond.kind_apply, Bond.kind_apply, Bond.supertype_apply]
  by_cases hplaced : g.Has kid ∧ b.kind = .bean ∧ kid ∈ b.kids
  · rw [if_pos hplaced]
    cases hkind : (g.get parent).kind <;> simp [hplaced, hfree]
  · rw [if_neg hplaced, iff_self_and]
    exact fun _ ⟨hbean, _, hkid, hhas⟩ => hplaced ⟨hhas, hbean, hkid⟩

theorem binds_apply (hb : other.Binds g b) (hne : family.parent ≠ other.parent) :
    family.Binds (b.apply g) c ↔ family.Binds g c ∧ b.Apart g c := by
  have htagged : ∀ listed, family.tagged (b.apply g) listed = family.tagged g listed :=
    fun listed => tagged_keeps (Bond.keeps_apply b g) Bond.size_apply listed
  constructor
  · rintro ⟨hparent, hkind, hbinding, htags, hadmitted⟩
    rw [Bond.kind_apply] at hkind
    simp only [members_apply hb hne, htagged] at hbinding
    have hadmits := fun kid hkid => (admits_apply hb hne).mp (hadmitted kid hkid)
    refine ⟨⟨hparent, hkind, hbinding, htags, fun kid hkid => (hadmits kid hkid).1⟩, ?_, ?_⟩
    · rw [hb.parent, hparent]
      exact Ne.symm hne
    · rintro ⟨hbean, hbean', kid, hkid, hkid', hhas⟩
      exact (hadmits kid hkid').2 ⟨hbean, hkind ▸ hbean', hkid, hhas⟩
  · rintro ⟨⟨hparent, hkind, hbinding, htags, hadmitted⟩, hapart⟩
    refine ⟨hparent, by rw [Bond.kind_apply, hkind], ?_, htags, fun kid hkid => ?_⟩
    · simpa only [members_apply hb hne, htagged] using hbinding
    · refine (admits_apply hb hne).mpr ⟨hadmitted kid hkid, ?_⟩
      rintro ⟨hbean, hbean', hkid', hhas⟩
      exact hapart.kids ⟨hbean, hkind.trans hbean', kid, hkid', hkid, hhas⟩

theorem binds_apply_all (hb : other.Binds g b) : ∀ {families : List Family} {bonds : List Bond},
    (∀ family ∈ families, family.parent ≠ other.parent) →
    (List.Forall₂ (Family.Binds (b.apply g)) families bonds ↔
      List.Forall₂ (Family.Binds g) families bonds ∧ ∀ c ∈ bonds, b.Apart g c) := by
  intro families
  induction families with
  | nil =>
    intro bonds _
    constructor
    · rintro ⟨⟩
      exact ⟨.nil, by simp⟩
    · rintro ⟨⟨⟩, -⟩
      exact .nil
  | cons family rest ih =>
    intro bonds hne
    cases bonds with
    | nil => exact iff_of_false (fun h => by cases h) fun ⟨h, _⟩ => by cases h
    | cons c bonds =>
      rw [List.forall₂_cons, List.forall₂_cons, List.forall_mem_cons,
        binds_apply hb (hne family List.mem_cons_self),
        ih fun family hfamily => hne family (List.mem_cons_of_mem _ hfamily)]
      tauto

/-- Families with different parents can be bound exactly if each can on its own and no two
compete. -/
theorem bindAll_iff : ∀ {families : List Family} {g h : TypeGraph},
    (families.map (·.parent)).Nodup →
    (bindAll g families = .ok h ↔ ∃ bonds, List.Forall₂ (Family.Binds g) families bonds ∧
      bonds.Pairwise (Bond.Apart g) ∧ h = g.mapIds (Bond.changes bonds)) := by
  intro families
  induction families with
  | nil =>
    intro g h _
    have hnone : Bond.changes [] = fun _ d => d := rfl
    rw [bindAll, List.foldlM_nil]
    constructor
    · intro hbind
      cases hbind
      exact ⟨[], .nil, .nil, (TypeGraph.mapIds_unchanged g).symm⟩
    · rintro ⟨bonds, hbonds, -, rfl⟩
      cases hbonds
      rw [hnone, TypeGraph.mapIds_unchanged]
      rfl
  | cons family rest ih =>
    intro g h hparents
    obtain ⟨hnot, hrest⟩ := List.nodup_cons.mp hparents
    have hne : ∀ other ∈ rest, other.parent ≠ family.parent :=
      fun other hother hsame => hnot (List.mem_map.mpr ⟨other, hother, hsame⟩)
    have happly : ∀ (b : Bond) (bonds : List Bond), (b.apply g).mapIds (Bond.changes bonds) =
        g.mapIds (Bond.changes (b :: bonds)) := fun b bonds => TypeGraph.mapIds_mapIds _ _
    rw [bindAll, List.foldlM_cons]
    constructor
    · intro hbind
      obtain ⟨mid, hfirst, hbind⟩ := ok_of_bind hbind
      obtain ⟨b, hb, rfl⟩ := bind_iff.mp hfirst
      obtain ⟨bonds, hbonds, hapart, rfl⟩ := (ih hrest).mp hbind
      obtain ⟨hbonds, hfree⟩ := (binds_apply_all hb hne).mp hbonds
      exact ⟨b :: bonds, .cons hb hbonds,
        .cons hfree (hapart.imp fun h => Bond.apart_apply.mp h), happly b bonds⟩
    · rintro ⟨bonds, hbonds, hapart, rfl⟩
      obtain ⟨b, others, hb, hothers, rfl⟩ := List.forall₂_cons_left_iff.mp hbonds
      obtain ⟨hfree, hapart⟩ := List.pairwise_cons.mp hapart
      rw [bind_iff.mpr ⟨b, hb, rfl⟩]
      exact (ih hrest).mpr ⟨others, (binds_apply_all hb hne).mpr ⟨hothers, hfree⟩,
        hapart.imp fun h => Bond.apart_apply.mpr h, (happly b others).symm⟩

end Family

/-- The declarations are the same but for the order of the interfaces. -/
structure TypeDecl.Alike (d e : TypeDecl) : Prop where
  rest : { d with interfaces := [] } = { e with interfaces := [] }
  interfaces : d.interfaces.Perm e.interfaces

theorem TypeDecl.Alike.refl (d : TypeDecl) : d.Alike d := ⟨rfl, .refl _⟩

theorem TypeDecl.Alike.trans {d e f : TypeDecl} (h : d.Alike e) (k : e.Alike f) : d.Alike f :=
  ⟨h.rest.trans k.rest, h.interfaces.trans k.interfaces⟩

/-- The same types but for the order of their interfaces. -/
structure TypeGraph.Alike (g h : TypeGraph) : Prop where
  size : g.size = h.size
  types : ∀ id, (g.get id).Alike (h.get id)

namespace Family

theorem addOnce_perm {ids others : List TypeId} (hperm : ids.Perm others) :
    (addOnce id ids).Perm (addOnce id others) := by
  have hcontains : ids.contains id = others.contains id := by
    rw [Bool.eq_iff_iff, List.contains_iff_mem, List.contains_iff_mem, hperm.mem_iff]
  unfold addOnce
  rw [hcontains]
  split
  · exact hperm
  · exact hperm.append_right [id]

theorem addOnce_comm (a b : TypeId) (ids : List TypeId) :
    (addOnce a (addOnce b ids)).Perm (addOnce b (addOnce a ids)) := by
  by_cases hab : a = b
  · rw [hab]
  · unfold addOnce
    by_cases ha : a ∈ ids
    · by_cases hb : b ∈ ids <;> simp [ha, hb]
    · by_cases hb : b ∈ ids
      · simp [ha, hb]
      · simpa [ha, hb, hab, Ne.symm hab] using (List.Perm.swap a b []).append_left ids

end Family

namespace Bond

theorem change_alike (b : Bond) (id : TypeId) {d e : TypeDecl} (h : d.Alike e) :
    (b.change id d).Alike (b.change id e) := by
  have hrest : ∀ d, { b.change id d with interfaces := [] } =
      { b.change id { d with interfaces := [] } with interfaces := [] } := fun _ => rfl
  refine ⟨by rw [hrest d, hrest e, h.rest], ?_⟩
  simp only [change, Family.placed]
  split
  · exact Family.addOnce_perm h.interfaces
  · exact h.interfaces

theorem change_comm (hapart : b.Apart g c) (hid : g.Has id) (d : TypeDecl) :
    (c.change id (b.change id d)).Alike (b.change id (c.change id d)) := by
  have hsuper : (c.change id (b.change id d)).supertype =
      (b.change id (c.change id d)).supertype := by
    have hfree : ¬ ((b.kind = .bean ∧ id ∈ b.kids) ∧ (c.kind = .bean ∧ id ∈ c.kids)) := by
      rintro ⟨⟨hb, hidb⟩, hc, hidc⟩
      exact hapart.kids ⟨hb, hc, id, hidb, hidc, hid⟩
    simp only [change, Family.placed]
    by_cases hb : b.kind = .bean ∧ id ∈ b.kids
    · simp only [if_pos hb, if_neg fun hc => hfree ⟨hb, hc⟩]
    · simp only [if_neg hb]
  have hparent : ¬ (id = b.parent ∧ id = c.parent) := by
    rintro ⟨hb, hc⟩
    exact hapart.parents (hb.symm.trans hc)
  have hsubtypes : (c.change id (b.change id d)).subtypes =
      (b.change id (c.change id d)).subtypes := by
    simp only [change, Family.placed]
    by_cases hb : id = b.parent
    · simp only [if_pos hb, if_neg fun hc => hparent ⟨hb, hc⟩]
    · simp only [if_neg hb]
  have hbinding : (c.change id (b.change id d)).binding =
      (b.change id (c.change id d)).binding := by
    simp only [change, Family.placed]
    by_cases hb : id = b.parent
    · simp only [if_pos hb, if_neg fun hc => hparent ⟨hb, hc⟩]
    · simp only [if_neg hb]
  refine ⟨?_, ?_⟩
  · rw [hsuper, hsubtypes, hbinding]
    rfl
  · simp only [change, Family.placed]
    by_cases hb : b.kind = .interface ∧ id ∈ b.kids
    · by_cases hc : c.kind = .interface ∧ id ∈ c.kids
      · simpa only [if_pos hb, if_pos hc] using Family.addOnce_comm _ _ _
      · simp only [if_neg hc, List.Perm.refl]
    · simp only [if_neg hb, List.Perm.refl]

theorem changes_alike (bonds : List Bond) (id : TypeId) : ∀ {d e : TypeDecl}, d.Alike e →
    (changes bonds id d).Alike (changes bonds id e) := by
  induction bonds with
  | nil => exact fun h => h
  | cons b _ ih => exact fun h => ih (b.change_alike id h)

theorem changes_perm {bonds others : List Bond} (hperm : bonds.Perm others) (hid : g.Has id) :
    bonds.Pairwise (Bond.Apart g) → ∀ {d e : TypeDecl}, d.Alike e →
      (changes bonds id d).Alike (changes others id e) := by
  induction hperm with
  | nil => exact fun _ _ _ h => h
  | cons b _ ih =>
    exact fun hapart _ _ h => ih (List.pairwise_cons.mp hapart).2 (b.change_alike id h)
  | @swap b c rest =>
    intro hapart d e h
    have hfirst := (List.pairwise_cons.mp hapart).1 b List.mem_cons_self
    exact changes_alike rest id
      ((change_comm hfirst hid d).trans (c.change_alike id (b.change_alike id h)))
  | trans h k ihh ihk =>
    exact fun hapart _ _ halike => (ihh hapart halike).trans
      (ihk ((h.pairwise_iff Apart.symm).mp hapart) (.refl _))

end Bond

namespace Family

/-- Families with different parents can be bound in one order exactly if they can be in another, and
the outcome differs in the order of interfaces only. -/
theorem bindAll_perm {g : TypeGraph} {families others : List Family}
    (hparents : (families.map (·.parent)).Nodup) (hperm : families.Perm others) :
    ((∃ h, bindAll g families = .ok h) ↔ ∃ h, bindAll g others = .ok h) ∧
    ∀ h k, bindAll g families = .ok h → bindAll g others = .ok k → h.Alike k := by
  have hbinds : ∀ {families others : List Family}, (families.map (·.parent)).Nodup →
      families.Perm others → ∀ {h}, bindAll g families = .ok h →
        ∃ k, bindAll g others = .ok k ∧ h.Alike k := by
    intro families others hparents hperm h hbind
    obtain ⟨bonds, hbonds, hapart, rfl⟩ := (bindAll_iff hparents).mp hbind
    obtain ⟨reordered, hreordered, hpermuted⟩ := List.perm_comp_forall₂ hperm.symm hbonds
    refine ⟨_, (bindAll_iff ((hperm.map _).nodup_iff.mp hparents)).mpr ⟨reordered, hreordered,
      (hpermuted.symm.pairwise_iff Bond.Apart.symm).mp hapart, rfl⟩, by simp, fun id => ?_⟩
    by_cases hid : g.Has id
    · rw [TypeGraph.get_mapIds hid, TypeGraph.get_mapIds hid]
      exact Bond.changes_perm hpermuted.symm hid hapart (.refl _)
    · rw [TypeGraph.get_of_not_has (by simpa using hid),
        TypeGraph.get_of_not_has (by simpa using hid)]
      exact .refl _
  refine ⟨⟨fun ⟨h, hh⟩ => ?_, fun ⟨k, hk⟩ => ?_⟩, fun h k hh hk => ?_⟩
  · obtain ⟨k, hk, -⟩ := hbinds hparents hperm hh
    exact ⟨k, hk⟩
  · obtain ⟨h, hh, -⟩ := hbinds ((hperm.map _).nodup_iff.mp hparents) hperm.symm hk
    exact ⟨h, hh⟩
  · obtain ⟨other, hother, halike⟩ := hbinds hparents hperm hh
    rw [hk] at hother
    cases hother
    exact halike

-- A class that two interfaces list as their child.
private def pairGraph : TypeGraph :=
  { types := #[{ kind := .interface, name := "Named" }, { kind := .interface, name := "Aged" },
      { name := "Person" }] }

private def listingPerson (parent : Nat) : Family :=
  ⟨⟨parent⟩, ⟨"mem:///" ++ toString parent, ""⟩, .property, .logicalName, "kind",
    [(.resolved (.generated ⟨2⟩), none)]⟩

private def pairOrder : List Family := [listingPerson 0, listingPerson 1]

private def interfacesAfter (families : List Family) : Option (List TypeId) :=
  (bindAll pairGraph families).toOption.map fun h => (h.get ⟨2⟩).interfaces

@[mk_iff] private structure PairOutcome : Prop where
  parents : (pairOrder.map (·.parent)).Nodup
  forth : interfacesAfter pairOrder = some [⟨0⟩, ⟨1⟩]
  back : interfacesAfter pairOrder.reverse = some [⟨1⟩, ⟨0⟩]

private theorem pair_outcome : PairOutcome :=
  pairOutcome_iff.mpr (by decide +kernel)

theorem bindAll_perm_pair : ∃ h k, bindAll pairGraph pairOrder = .ok h ∧
    bindAll pairGraph pairOrder.reverse = .ok k ∧ (h.get ⟨2⟩).interfaces = [⟨0⟩, ⟨1⟩] ∧
    (k.get ⟨2⟩).interfaces = [⟨1⟩, ⟨0⟩] ∧ h.Alike k := by
  obtain ⟨h, hforth, hinterfaces⟩ := Option.map_eq_some_iff.mp pair_outcome.forth
  obtain ⟨k, hback, hinterfaces'⟩ := Option.map_eq_some_iff.mp pair_outcome.back
  have hforth := eq_ok_of_toOption hforth
  have hback := eq_ok_of_toOption hback
  exact ⟨h, k, hforth, hback, hinterfaces, hinterfaces',
    (bindAll_perm pair_outcome.parents pairOrder.reverse_perm.symm).2 h k hforth hback⟩

end Family

end SchemaBeans
