import SchemaBeans.Proofs.Generation.Consistency
import SchemaBeans.Proofs.Java.Identifiers
import SchemaBeans.Proofs.Text.Cutting
import SchemaBeans.Proofs.TypeGraph.Nesting

/-! # Houses of new types

A new type goes into the package of the type it stands in, and it is refused if a type around it
has its name. Its name is an identifier, or the end of a `javaType`, so it has no dot unless the
settings put one there. -/
namespace SchemaBeans

namespace Names

/-- A class name has a dot only if its prefix or its suffix has one. -/
theorem dot_not_mem_typeName {settings : Settings} (hbefore : '.' ∉ settings.classNamePrefix.toList)
    (hafter : '.' ∉ settings.classNameSuffix.toList) (raw : String) :
    '.' ∉ (typeName settings raw).toList := by
  have hmiddle : '.' ∉ (capitalize (identifier settings.propertyWordDelimiters raw)).toList := by
    obtain ⟨first, rest, hname, hspelled⟩ :=
      identifier_spelled settings.propertyWordDelimiters raw
    rw [capitalize_cons hname hspelled.isIdentifierChar]
    intro hdot
    exact absurd (hspelled.toUpper.2 _ hdot) (by decide)
  unfold typeName
  simp only [String.toList_append, List.mem_append, not_or]
  exact ⟨⟨hbefore, hmiddle⟩, hafter⟩

end Names

namespace Drafting

variable {ctx : Context} {base : Nat} {d e : Draft}

theorem dot_not_mem_slot {settings : Settings} (hbefore : '.' ∉ settings.classNamePrefix.toList)
    (hafter : '.' ∉ settings.classNameSuffix.toList) (g : TypeGraph) (request : Request)
    (keywords : Keywords) : '.' ∉ (slot settings g request keywords).name.toList := by
  unfold slot
  split
  · rename_i javaType _
    split
    · rename_i package simple hcut
      simpa using (Text.cutLast_eq_some.mp hcut).2
    · rename_i hcut
      exact Text.cutLast_eq_none.mp hcut
  · have hname := Names.dot_not_mem_typeName hbefore hafter (rawName settings keywords request)
    dsimp only
    split <;> exact hname

theorem Move.dotless (h : Move ctx base d e) (hbefore : '.' ∉ ctx.settings.classNamePrefix.toList)
    (hafter : '.' ∉ ctx.settings.classNameSuffix.toList) (hd : d.graph.Dotless) :
    e.graph.Dotless := by
  rcases h.declares_or with ⟨request, node, kind, hdecl, rfl⟩ | ⟨hsize, _⟩
  · intro id hid
    rcases TypeGraph.has_insert.mp hid with hin | rfl
    · rw [h.keeps.name hin]
      exact hd id hin
    · simp only [Drafting.declared, TypeGraph.get_insert_self]
      exact dot_not_mem_slot hbefore hafter _ _ _
  · exact hd.keeps h.keeps hsize

theorem checkEnclosing_ok {g : TypeGraph} {slot : Slot} {place : Location} {owner : TypeId}
    (h : checkEnclosing g slot place = .ok ()) (howner : slot.enclosing = some owner) :
    ∀ outer ∈ g.outwards owner, (g.get outer).name ≠ slot.name := by
  unfold checkEnclosing at h
  rw [howner] at h
  dsimp only at h
  split at h
  · rename_i hnone
    simpa using hnone
  · cases h

theorem Move.housed (h : Move ctx base d e) (hnests : d.graph.Nests) (hd : d.graph.Housed) :
    e.graph.Housed := by
  have hnests' := h.nests hnests
  rcases h.declares_or with ⟨request, node, kind, hdecl, rfl⟩ | ⟨hsize, _⟩
  · have hkeeps := h.keeps
    have hnew := TypeGraph.get_insert_self d.graph
    constructor
    · intro id owner hid howner
      rcases TypeGraph.has_insert.mp hid with hin | rfl
      · rw [hkeeps.enclosing hin] at howner
        rw [hkeeps.package hin, hkeeps.package (hnests.has_owner hin howner)]
        exact hd.package id owner hin howner
      · simp only [Drafting.declared, hnew] at howner
        rw [hkeeps.package (has_owner hdecl.fits howner)]
        simp only [Drafting.declared, hnew]
        exact (slot_enclosing howner).2
    · intro id owner hid howner outer houter
      have hold : ∀ owner, d.graph.Has owner →
          outer ∈ (Drafting.declared ctx d request node kind).graph.outwards owner →
          outer ∈ d.graph.outwards owner ∧ d.graph.Has outer := by
        intro owner hown houter
        rw [hkeeps.outwards hnests hnests' hown] at houter
        exact ⟨houter, (TypeGraph.outermost_of_mem_outwards hnests hown houter).1⟩
      rcases TypeGraph.has_insert.mp hid with hin | rfl
      · rw [hkeeps.enclosing hin] at howner
        obtain ⟨houter, hhas⟩ := hold owner (hnests.has_owner hin howner) houter
        rw [hkeeps.name hin, hkeeps.name hhas]
        exact hd.apart id owner hin howner outer houter
      · simp only [Drafting.declared, hnew] at howner
        obtain ⟨houter, hhas⟩ := hold owner (has_owner hdecl.fits howner) houter
        rw [hkeeps.name hhas]
        simp only [Drafting.declared, hnew]
        exact checkEnclosing_ok hdecl.enclosing howner outer houter
  · exact hd.keeps h.keeps hsize hnests

theorem Leads.housed (h : Leads ctx base d e) (hd : Consistent d) (hhoused : d.graph.Housed) :
    e.graph.Housed := by
  induction h with
  | refl => exact hhoused
  | tail hde hm ih => exact hm.housed (Leads.consistent hde hd).nests ih

theorem Leads.dotless (h : Leads ctx base d e) (hbefore : '.' ∉ ctx.settings.classNamePrefix.toList)
    (hafter : '.' ∉ ctx.settings.classNameSuffix.toList) (hd : d.graph.Dotless) :
    e.graph.Dotless := by
  induction h with
  | refl => exact hd
  | tail _ hm ih => exact hm.dotless hbefore hafter ih

theorem housed_empty : (({} : Draft).graph).Housed := by
  have hnot : ∀ id, ¬ (({} : Draft).graph).Has id := fun id h => by
    simp [TypeGraph.Has, TypeGraph.size] at h
  exact ⟨fun id _ h => absurd h (hnot id), fun id _ h => absurd h (hnot id)⟩

theorem dotless_empty : (({} : Draft).graph).Dotless := fun id h => by
  simp [TypeGraph.Has, TypeGraph.size] at h

end Drafting

end SchemaBeans
