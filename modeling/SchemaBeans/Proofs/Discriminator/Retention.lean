import SchemaBeans.Proofs.Discriminator.Order
import SchemaBeans.Proofs.Generation.Ascent
import SchemaBeans.Proofs.Generation.Links

/-! # What a bound family keeps

A family is bound in the graph that the families before it left behind, and those after it are bound
in the graph that it leaves. None of them has its parent or makes a subclass of one of its children.
So whatever it declares can be read off the finished graph. -/
namespace SchemaBeans

namespace Bond

variable {id : TypeId} {bonds : List Bond}

theorem changes_invariant {P : TypeDecl → Prop} :
    ∀ {bonds : List Bond} {d : TypeDecl}, (∀ c ∈ bonds, ∀ d, P d → P (c.change id d)) → P d →
      P (changes bonds id d) := by
  intro bonds
  induction bonds with
  | nil => exact fun _ h => h
  | cons c rest ih =>
    intro d hstep h
    exact ih (fun c hc => hstep c (List.mem_cons_of_mem _ hc)) (hstep c List.mem_cons_self d h)

theorem changes_part {α : Type} (part : TypeDecl → α) {d : TypeDecl}
    (hpart : ∀ c ∈ bonds, ∀ d, part (c.change id d) = part d) :
    part (changes bonds id d) = part d :=
  changes_invariant (P := fun e => part e = part d) (fun c hc e h => (hpart c hc e).trans h) rfl

end Bond

namespace Family

open Drafting (mem_addOnce Enrolled)

variable {family : Family} {g mid h : TypeGraph} {b : Bond} {listed : List (TypeId × Option String)}

/-- The finished graph `h` holds what the family declares, for the children that it covers in the
graph `mid`. The parent records them, but for itself, each with its tag or the default one, and
every child is placed below the parent. -/
structure BoundAs (mid h : TypeGraph) (family : Family) (b : Binding) : Prop where
  recorded : (h.get family.parent).binding = some b
  inclusion : b.inclusion = family.inclusion
  identification : b.identification = family.identification
  property : b.property = family.property
  children : ∃ listed, family.Covers mid listed ∧
    b.children = (listed.filter (·.1 ≠ family.parent)).map fun child =>
      (child.1, child.2.getD (defaultTag h family.identification child.1))
  tags : (b.children.map (·.2)).Nodup
  placed : ∀ child ∈ b.children, child.1 ∈ (h.get family.parent).subtypes ∧
    ((h.get family.parent).kind = .interface ∧ family.parent ∈ (h.get child.1).interfaces ∨
      (h.get family.parent).kind = .bean ∧
        (h.get child.1).supertype = some (.generated family.parent))

theorem keeps_changes (g : TypeGraph) (bonds : List Bond) :
    g.Keeps (g.mapIds (Bond.changes bonds)) :=
  TypeGraph.keeps_mapIds (fun _ _ => Bond.changes_part TypeDecl.head fun _ _ _ => rfl)
    fun _ _ => Bond.changes_part TypeDecl.nested fun _ _ _ => rfl

theorem placed_changes (hb : family.Binds mid b) (hparent : mid.Has family.parent)
    {bonds : List Bond}
    (hapart : ∀ c ∈ bonds, b.Apart mid c)
    (hh : h = (b.apply mid).mapIds (Bond.changes bonds)) :
    (h.get family.parent).binding = some b.binding ∧ ∀ kid ∈ b.kids, mid.Has kid →
      kid ∈ (h.get family.parent).subtypes ∧
      ((h.get family.parent).kind = .interface ∧ family.parent ∈ (h.get kid).interfaces ∨
        (h.get family.parent).kind = .bean ∧
          (h.get kid).supertype = some (.generated family.parent)) := by
  have hget : ∀ id, mid.Has id →
      h.get id = Bond.changes bonds id (b.change id (mid.get id)) := by
    intro id hid
    rw [hh, TypeGraph.get_mapIds (Bond.has_apply.mpr hid), Bond.get_apply hid]
  have hne : ∀ c ∈ bonds, family.parent ≠ c.parent := fun c hc => hb.parent ▸ (hapart c hc).parents
  have hkind : (h.get family.parent).kind = b.kind := by
    rw [hget _ hparent, Bond.changes_part TypeDecl.kind fun _ _ _ => rfl, hb.kind]
    rfl
  refine ⟨?_, fun kid hkid hhas => ⟨?_, ?_⟩⟩
  · rw [hget _ hparent, Bond.changes_part TypeDecl.binding fun c hc d => ?_]
    · simp only [Bond.change, if_pos hb.parent.symm]
    · simp only [Bond.change, if_neg (hne c hc)]
  · rw [hget _ hparent, Bond.changes_part TypeDecl.subtypes fun c hc d => ?_]
    · simp only [Bond.change, placed, if_pos hb.parent.symm]
      exact mem_foldl_addOnce.mpr (.inr hkid)
    · simp only [Bond.change, placed, if_neg (hne c hc)]
  · rw [hkind, hget kid hhas, ← hb.parent]
    rcases hb.admitted kid hkid with hinterface | ⟨hbean, -⟩
    · rw [← hb.kind] at hinterface
      refine .inl ⟨hinterface, Bond.changes_invariant (P := fun d => b.parent ∈ d.interfaces) ?_ ?_⟩
      · intro c _ d hd
        simp only [Bond.change, placed]
        split
        · exact mem_addOnce.mpr (.inr hd)
        · exact hd
      · simp only [Bond.change, placed, if_pos (And.intro hinterface hkid)]
        exact mem_addOnce.mpr (.inl rfl)
    · rw [← hb.kind] at hbean
      refine .inr ⟨hbean, ?_⟩
      rw [Bond.changes_part TypeDecl.supertype fun c hc d => ?_]
      · simp only [Bond.change, placed, if_pos (And.intro hbean hkid)]
      · have hfree : ¬ (c.kind = .bean ∧ kid ∈ c.kids) := by
          rintro ⟨hc', hkid'⟩
          exact (hapart c hc).kids ⟨hbean, hc', kid, hkid, hkid', hhas⟩
        simp only [Bond.change, placed, if_neg hfree]

theorem Binds.ascends (hb : family.Binds g b) : g.Ascends (b.apply g) := by
  have hsubtypes : ∀ id, (g.get id).subtypes ⊆ ((b.apply g).get id).subtypes :=
    fun id kid hkid => Bond.mem_subtypes_apply.mpr (.inl hkid)
  refine ⟨fun id parent hparent => ?_, fun id hid => by rwa [hb.extends hid],
    fun a c hac => .inl ?_, fun a c hac => ?_⟩
  · by_cases hid : g.Has id
    · rw [Bond.get_apply hid]
      simp only [Bond.change, placed]
      split
      · exact mem_addOnce.mpr (.inr hparent)
      · exact hparent
    · rw [TypeGraph.get_of_not_has hid] at hparent
      cases hparent
  · rw [TypeGraph.extends_iff_supertype] at hac ⊢
    rw [hb.extends (by simp [hac]), hac]
  · exact ⟨by rw [Bond.kind_apply]; exact hac.kind, hsubtypes c hac.subtype⟩

theorem bindAll_ascends : ∀ {families : List Family} {g h : TypeGraph},
    bindAll g families = .ok h → g.Ascends h := by
  intro families
  induction families with
  | nil =>
    intro g h hbind
    cases hbind
    exact refl g
  | cons family rest ih =>
    intro g h hbind
    unfold bindAll at hbind
    rw [List.foldlM_cons] at hbind
    obtain ⟨mid, hfirst, hrest⟩ := ok_of_bind hbind
    obtain ⟨b, hb, rfl⟩ := bind_iff.mp hfirst
    exact IsTrans.trans _ _ _ hb.ascends (ih hrest)

theorem bindAll_part {α : Type} (part : TypeDecl → α)
    (hpart : ∀ (b : Bond) (id : TypeId) (d : TypeDecl), part (b.change id d) = part d) :
    ∀ {families : List Family} {g h : TypeGraph}, bindAll g families = .ok h →
      ∀ id, part (h.get id) = part (g.get id) := by
  intro families
  induction families with
  | nil =>
    intro g h hbind id
    cases hbind
    rfl
  | cons family rest ih =>
    intro g h hbind id
    unfold bindAll at hbind
    rw [List.foldlM_cons] at hbind
    obtain ⟨mid, hfirst, hrest⟩ := ok_of_bind hbind
    obtain ⟨b, -, rfl⟩ := bind_iff.mp hfirst
    rw [ih hrest id]
    by_cases hid : g.Has id
    · rw [Bond.get_apply hid, hpart]
    · rw [TypeGraph.get_of_not_has hid, TypeGraph.get_of_not_has (by simpa using hid)]

theorem bindAll_binding {id : TypeId} {binding : Binding} : ∀ {families : List Family}
    {g h : TypeGraph}, bindAll g families = .ok h → (h.get id).binding = some binding →
      (g.get id).binding = some binding ∨ ∃ family ∈ families, family.parent = id := by
  intro families
  induction families with
  | nil =>
    intro g h hbind hbinding
    cases hbind
    exact .inl hbinding
  | cons family rest ih =>
    intro g h hbind hbinding
    unfold bindAll at hbind
    rw [List.foldlM_cons] at hbind
    obtain ⟨mid, hfirst, hrest⟩ := ok_of_bind hbind
    obtain ⟨b, hb, rfl⟩ := bind_iff.mp hfirst
    rcases ih hrest hbinding with hmid | ⟨other, hother, hparent⟩
    · by_cases hid : id = family.parent
      · exact .inr ⟨family, List.mem_cons_self, hid.symm⟩
      · refine .inl ?_
        by_cases hhas : g.Has id
        · simpa [Bond.get_apply hhas, Bond.change, placed, hb.parent, hid] using hmid
        · rw [TypeGraph.get_of_not_has fun h => hhas (Bond.has_apply.mp h)] at hmid
          cases hmid
    · exact .inr ⟨other, List.mem_cons_of_mem _ hother, hparent⟩

/-- If families with different parents are bound one after the other, each of them is bound in the
finished graph. -/
theorem bindAll_bound {pre post : List Family} (henrolled : Enrolled g) (hclosed : g.Closed)
    (hvalid : ∀ other ∈ pre ++ family :: post, other.Valid g)
    (hparents : ((pre ++ family :: post).map (·.parent)).Nodup)
    (hbind : bindAll g (pre ++ family :: post) = .ok h) :
    ∃ mid b, bindAll g pre = .ok mid ∧ family.BoundAs mid h b := by
  unfold bindAll at hbind
  rw [List.foldlM_append] at hbind
  obtain ⟨mid, hpre, hbind⟩ := ok_of_bind hbind
  rw [List.foldlM_cons] at hbind
  obtain ⟨next, hnext, hpost⟩ := ok_of_bind hbind
  obtain ⟨b, hb, rfl⟩ := bind_iff.mp hnext
  -- The types that the family covers exist where it is bound.
  have hvalidPre : ∀ other ∈ pre, other.Valid g :=
    fun other hother => hvalid other (by simp [hother])
  have hgains := bindAll_gains henrolled hvalidPre hpre
  have hfamily : family.Valid mid := (hvalid family (by simp)).keeps hgains.keeps
  have hclosedMid := bindAll_closed henrolled hclosed hvalidPre hpre
  obtain ⟨listed, hmembers, hbinding⟩ := hb.binding
  -- The families after it stay away from its parent and its children.
  rw [List.map_append, List.map_cons] at hparents
  obtain ⟨hnot, hrest⟩ := List.nodup_cons.mp hparents.of_append_right
  have hne : ∀ other ∈ post, other.parent ≠ family.parent :=
    fun other hother hsame => hnot (List.mem_map.mpr ⟨other, hother, hsame⟩)
  obtain ⟨bonds, hbonds, -, hh⟩ := (bindAll_iff hrest).mp hpost
  have hapart := ((binds_apply_all hb hne).mp hbonds).2
  obtain ⟨hrecorded, hplaced⟩ := placed_changes hb hfamily.parent hapart hh
  have hkeeps : mid.Keeps h := hh ▸ (Bond.keeps_apply b mid).trans (keeps_changes _ bonds)
  have hsize : h.size = mid.size := by
    rw [hh, TypeGraph.size_mapIds, Bond.size_apply]
  have hchildren : b.binding.children = family.tagged mid listed := by rw [hbinding]
  refine ⟨mid, b.binding, hpre, hrecorded, by rw [hbinding], by rw [hbinding], by rw [hbinding],
    ⟨listed, members_covers hmembers, ?_⟩, hb.tags, fun child hchild => ?_⟩
  · rw [hchildren, ← tagged_keeps hkeeps hsize]
    rfl
  · have hkid : child.1 ∈ b.kids := List.mem_map_of_mem hchild
    exact hplaced child.1 hkid (hb.has_kid hfamily (fun _ => implicit_has hclosedMid) hkid)

end Family

end SchemaBeans
