import Mathlib.Data.List.Nodup
import SchemaBeans.Proofs.TypeGraph.Nesting

/-! # The types inside the top-level types

The list of the types nested in a type grows by the new types declared there and by nothing else.
Down from a top-level type every type inside it is met once, and no type is inside two of them.
So all top-level types together lead to every type exactly once. -/
namespace SchemaBeans.TypeGraph

variable {g h : TypeGraph} {id owner : TypeId}

theorem nodup_ids (g : TypeGraph) : g.ids.Nodup :=
  List.Nodup.map (fun _ _ h => TypeId.mk.inj h) List.nodup_range

theorem Nests.nodup_nested (hg : g.Nests) (owner : TypeId) : (g.nested owner).Nodup := by
  rw [hg.listed owner]
  exact (nodup_ids g).filter _

theorem eq_of_mem_outwards (hg : g.Nests) (hid : g.Has id) {a b : TypeId} (ha : a ∈ g.outwards id)
    (hb : b ∈ g.outwards id) (hao : (g.get a).enclosing = some owner)
    (hbo : (g.get b).enclosing = some owner) : a = b := by
  refine hg.induction (P := fun id => a ∈ g.outwards id → b ∈ g.outwards id → a = b)
    (fun id hid ih ha hb => ?_) hid ha hb
  cases hnext : (g.get id).enclosing with
  | none =>
    rw [outwards_topLevel hg hid hnext, List.mem_singleton] at ha hb
    rw [ha, hb]
  | some next =>
    have hhas := hg.has_owner hid hnext
    -- A type further out is not younger than the owner, so it does not stand in it.
    have hbeyond : ∀ c ∈ g.outwards next, (g.get c).enclosing ≠ some next := fun c hc hcn => by
      have hle := index_le_of_mem_outwards hg hhas hc
      have hlt := hg.younger c next (outermost_of_mem_outwards hg hhas hc).1 hcn
      omega
    rw [outwards_nested hg hid hnext, List.mem_cons] at ha hb
    rcases ha with rfl | ha
    · obtain rfl := Option.some.inj (hnext.symm.trans hao)
      rcases hb with rfl | hb
      · rfl
      · exact absurd hbo (hbeyond b hb)
    · rcases hb with rfl | hb
      · obtain rfl := Option.some.inj (hnext.symm.trans hbo)
        exact absurd hao (hbeyond a ha)
      · exact ih next hnext ha hb

theorem nodup_inside (hg : g.Nests) :
    ∀ (depth : Nat) (owner : TypeId), g.Has owner → (g.inside depth owner).Nodup := by
  intro depth
  induction depth with
  | zero => exact fun _ _ => List.nodup_nil
  | succ depth ih =>
    intro owner howner
    refine List.nodup_cons.mpr
      ⟨fun hself => ?_, List.nodup_flatMap.mpr ⟨fun inner hinner => ?_, ?_⟩⟩
    · obtain ⟨inner, hinner, hmem⟩ := List.mem_flatMap.mp hself
      obtain ⟨hhas, hnested⟩ := hg.mem_nested.mp hinner
      have hle := index_le_of_mem_outwards hg howner (outwards_of_mem_inside hg _ _ hhas hmem).2
      have hlt := hg.younger inner owner hhas hnested
      omega
    · exact ih inner (hg.mem_nested.mp hinner).1
    · refine (hg.nodup_nested owner).imp_of_mem fun {a b} ha hb hne id hida hidb => hne ?_
      obtain ⟨hhasa, hnesteda⟩ := hg.mem_nested.mp ha
      obtain ⟨hhasb, hnestedb⟩ := hg.mem_nested.mp hb
      obtain ⟨hid, houta⟩ := outwards_of_mem_inside hg _ _ hhasa hida
      exact eq_of_mem_outwards hg hid houta (outwards_of_mem_inside hg _ _ hhasb hidb).2 hnesteda
        hnestedb

theorem mem_topLevel {top : TypeId} :
    top ∈ g.topLevel ↔ g.Has top ∧ (g.get top).enclosing = none := by
  simp [topLevel, mem_ids]

/-- The types inside the top-level types, in whatever order these come, are all types, each once. -/
theorem inside_perm_ids (hg : g.Nests) {order : List TypeId} (horder : order.Perm g.topLevel) :
    (order.flatMap (g.inside (g.size + 1))).Perm g.ids := by
  have hmem : ∀ {top id : TypeId}, top ∈ order →
      (id ∈ g.inside (g.size + 1) top ↔ g.Has id ∧ g.outermost id = top) := fun htop =>
    mem_inside_topLevel hg (mem_topLevel.mp (horder.mem_iff.mp htop)).1
      (mem_topLevel.mp (horder.mem_iff.mp htop)).2
  have hnodup : order.Nodup := horder.nodup_iff.mpr ((nodup_ids g).filter _)
  refine (List.perm_ext_iff_of_nodup (List.nodup_flatMap.mpr ⟨fun top htop => ?_, ?_⟩)
    (nodup_ids g)).mpr fun id => ?_
  · exact nodup_inside hg _ top (mem_topLevel.mp (horder.mem_iff.mp htop)).1
  · refine hnodup.imp_of_mem fun {a b} ha hb hne id hida hidb => hne ?_
    rw [← ((hmem ha).mp hida).2, ((hmem hb).mp hidb).2]
  · rw [List.mem_flatMap, mem_ids]
    constructor
    · rintro ⟨top, htop, hid⟩
      exact ((hmem htop).mp hid).1
    · intro hid
      have htop := horder.mem_iff.mpr (mem_topLevel.mpr (outermost_spec hg hid))
      exact ⟨g.outermost id, htop, (hmem htop).mpr ⟨hid, rfl⟩⟩

end SchemaBeans.TypeGraph
