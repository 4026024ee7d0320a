import Mathlib.Algebra.Order.BigOperators.Group.List
import Mathlib.Tactic.Ring
import SchemaBeans.Proofs.Generation.Standing
import SchemaBeans.Proofs.Json.Ways
import SchemaBeans.Proofs.Keywords.Members
import SchemaBeans.Proofs.Store.Following

/-! # Regions of a library

A region of locations is closed if it has every object that a reference in a document leads to,
and every object on a way down from a schema in it. New nodes of a store stay in a closed region.
Finitely many starts have a finite region: each object in it is found on a way down from one of
them. -/
namespace SchemaBeans

namespace Library

open Relation

variable {lib : Library} {starts : List Location} {place : Location}

structure Closed (lib : Library) (region : Location → Prop) : Prop where
  target {name reference : String} {document : Json} {target : Location} {members : Json.Members}
    (hdocument : lib name = .ok document) (hreference : document.Holds reference)
    (htarget : Location.ofReference name reference = .ok target)
    (hcontent : lib.Contains target (.object members)) : region target
  below {place : Location} {members inner : Json.Members} {names : List String}
    (hplace : region place) (hcontent : lib.Contains place (.object members))
    (hway : Json.Through (.object members) names (.object inner)) : region (place.below names)

def Covers (lib : Library) (region : Location → Prop) (place : Location) : Prop :=
  ∀ members, lib.Contains place (.object members) → region place

/-- The segments that lead from a schema to a value inside it without passing a list. -/
inductive Inner : List String → Prop
  | keyword (name : String) : Inner [name]
  | property (key : String) : Inner ["properties", key]

section Closed

variable {region : Location → Prop} {content : Json} {keywords : Keywords}

theorem Closed.leads (hclosed : lib.Closed region) {last : Location}
    (hplace : lib.Covers region place) (h : ReflTransGen lib.Refers place last) :
    lib.Covers region last := by
  rcases ReflTransGen.cases_tail h with rfl | ⟨before, -, hlast⟩
  · exact hplace
  · intro members hmembers
    obtain ⟨⟨hdocument, hcontent⟩, hread, href, htarget⟩ := hlast
    have hholds := (Keywords.ofMembers_reference hread href).resolve_left fun h => by cases h
    exact hclosed.target hdocument (hholds.of_lookup? hcontent) htarget hmembers

theorem Closed.inside (hclosed : lib.Closed region) (hplace : lib.Covers region place)
    (hcontent : lib.Contains place content)
    (hread : Store.keywordsOf place content = .ok keywords) {segments : List String}
    (hsegments : Inner segments) : lib.Covers region (place.below segments) := by
  intro inner hinner
  obtain ⟨whole, hwhole, hpart⟩ := contains_above hinner
  obtain rfl := contains_unique hcontent hwhole
  rcases keywordsOf_cases hread with ⟨rfl, -⟩ | ⟨members, rfl, hmembers⟩
  · cases hsegments <;> cases hpart
  suffices hway : Json.Through (.object members) segments (.object inner) from
    hclosed.below (hplace members hcontent) hcontent hway
  cases hsegments with
  | keyword name =>
    rw [Json.descend?_cons] at hpart
    obtain ⟨value, hvalue, hrest⟩ := Option.bind_eq_some_iff.mp hpart
    cases hrest
    exact ⟨members, _, rfl, hvalue, rfl⟩
  | property key =>
    rw [Json.descend?_cons] at hpart
    obtain ⟨value, hvalue, hrest⟩ := Option.bind_eq_some_iff.mp hpart
    have hmember : ("properties", value) ∈ members := Json.mem_of_lookup hvalue
    rcases Keywords.properties_object hmembers hmember with rfl | ⟨properties, rfl⟩
    · cases hrest
    · rw [Json.descend?_cons] at hrest
      obtain ⟨found, hfound, hlast⟩ := Option.bind_eq_some_iff.mp hrest
      cases hlast
      exact ⟨members, _, rfl, hvalue, properties, _, rfl, hfound, rfl⟩

/-- The region covers the children that a schema in a document names for its family. -/
theorem Closed.names (hclosed : lib.Closed region) (hcontent : lib.Contains place content)
    (hread : Store.keywordsOf place content = .ok keywords) {metadata : Json} {text : String}
    (hfamily : keywords.family = some metadata) (htext : metadata.Holds text) {target : Location}
    (htarget : Location.ofReference place.document text = .ok target) :
    lib.Covers region target := by
  intro inner hinner
  rcases keywordsOf_cases hread with ⟨-, rfl⟩ | ⟨members, rfl, hmembers⟩
  · cases hfamily
  obtain ⟨hdocument, hpart⟩ := hcontent
  have hholds := Keywords.family_holds hmembers hfamily htext
  exact hclosed.target hdocument (hholds.of_lookup? hpart) htarget hinner

end Closed

/-- An object on a way down from one of the starts. -/
inductive Within (lib : Library) (starts : List Location) : Location → Prop
  | intro {start : Location} {content : Json} {names : List String} {members : Json.Members}
      (hstart : start ∈ starts) (hcontent : lib.Contains start content)
      (hway : content.Through names (.object members)) : Within lib starts (start.below names)

theorem within_start {members : Json.Members} (hplace : place ∈ starts)
    (hcontent : lib.Contains place (.object members)) : lib.Within starts place :=
  @Within.intro lib starts place _ [] members hplace hcontent rfl

theorem Within.below {members inner : Json.Members} {names : List String}
    (h : lib.Within starts place) (hcontent : lib.Contains place (.object members))
    (hway : Json.Through (.object members) names (.object inner)) :
    lib.Within starts (place.below names) := by
  obtain ⟨hstart, hwhole, hfirst⟩ := h
  have hsame := contains_unique (hwhole.below _ hfirst.descend?) hcontent
  rw [hsame] at hfirst
  rw [← Location.below_append]
  exact .intro hstart hwhole (hfirst.append hway)

/-- The locations that the ways down from a place lead to. -/
def around (lib : Library) (place : Location) : List Location :=
  match lib place.document with
  | .ok document => ((document.lookup? place.pointer).elim [] Json.ways).map place.below
  | .error _ => []

theorem around_eq {content : Json} (h : lib.Contains place content) :
    lib.around place = content.ways.map place.below := by
  obtain ⟨hdocument, hcontent⟩ := h
  unfold around
  rw [hdocument]
  simp only [hcontent, Option.elim]

theorem length_around_le {most : Nat}
    (hmost : ∀ place content, lib.Contains place content → content.objects ≤ most)
    (place : Location) : (lib.around place).length ≤ most := by
  by_cases h : ∃ content, lib.Contains place content
  · obtain ⟨content, hcontent⟩ := h
    rw [around_eq hcontent, List.length_map]
    exact Nat.le_trans (Json.length_ways_le content) (hmost place content hcontent)
  · have hnone : lib.around place = [] := by
      unfold around
      split
      · rename_i document hdocument
        cases hcontent : document.lookup? place.pointer with
        | none => rfl
        | some content => exact absurd ⟨content, hdocument, hcontent⟩ h
      · rfl
    rw [hnone]
    exact Nat.zero_le most

theorem Within.mem_around (h : lib.Within starts place) :
    place ∈ starts.flatMap lib.around := by
  obtain ⟨hstart, hcontent, hway⟩ := h
  refine List.mem_flatMap.mpr ⟨_, hstart, ?_⟩
  rw [around_eq hcontent]
  exact List.mem_map_of_mem hway.mem_ways

theorem length_flatMap_around_le {most : Nat}
    (hmost : ∀ place content, lib.Contains place content → content.objects ≤ most)
    (starts : List Location) : (starts.flatMap lib.around).length ≤ starts.length * most := by
  induction starts with
  | nil => exact Nat.zero_le _
  | cons start rest ih =>
    have hfirst := length_around_le hmost start
    rw [List.flatMap_cons, List.length_append, List.length_cons, Nat.succ_mul]
    omega

theorem length_le_of_within {most : Nat}
    (hmost : ∀ place content, lib.Contains place content → content.objects ≤ most)
    {row : List Location} (hrow : row.Nodup) (h : ∀ place ∈ row, lib.Within starts place) :
    row.length ≤ starts.length * most := by
  have hsub : row ⊆ starts.flatMap lib.around := fun place hplace => (h place hplace).mem_around
  exact Nat.le_trans (hrow.subperm hsub).length_le (length_flatMap_around_le hmost starts)

def targets (documents : List (String × Json)) : List Location :=
  documents.flatMap fun document => document.2.strings.filterMap fun text =>
    (Location.ofReference document.1 text).toOption

theorem length_targets_le (documents : List (String × Json)) :
    (targets documents).length ≤ (documents.map fun document => document.2.strings.length).sum := by
  induction documents with
  | nil => exact Nat.le_refl _
  | cons document rest ih =>
    have hfirst := List.length_filterMap_le
      (fun text => (Location.ofReference document.1 text).toOption) document.2.strings
    rw [targets, List.flatMap_cons, List.length_append, List.map_cons, List.sum_cons]
    exact Nat.add_le_add hfirst ih

def objectsIn (documents : List (String × Json)) : Nat :=
  (documents.map fun document => document.2.objects).sum

section Documents

variable {documents : List (String × Json)}
  (hdocuments : ∀ name content, lib name = .ok content → (name, content) ∈ documents)

include hdocuments

theorem within_closed (starts : List Location) :
    lib.Closed (lib.Within (starts ++ targets documents)) where
  target hdocument hreference htarget hcontent := by
    refine within_start (List.mem_append_right _ ?_) hcontent
    refine List.mem_flatMap.mpr ⟨_, hdocuments _ _ hdocument, ?_⟩
    exact List.mem_filterMap.mpr ⟨_, hreference.mem_strings, by rw [htarget]; rfl⟩
  below hplace hcontent hway := hplace.below hcontent hway

theorem objects_le {content : Json} (h : lib.Contains place content) :
    content.objects ≤ objectsIn documents := by
  obtain ⟨hdocument, hcontent⟩ := h
  refine Nat.le_trans (Json.objects_lookup?_le hcontent) (List.le_sum_of_mem ?_)
  exact List.mem_map.mpr ⟨_, hdocuments _ _ hdocument, rfl⟩

end Documents

end Library

namespace Store

theorem strings_add_objects_le (files : FileSystem) (st : Store) :
    (st.documents.map fun document => document.2.strings.length).sum +
      Library.objectsIn st.documents ≤ st.values files := by
  have hfold : ∀ (documents : List (String × Json)) (total : Nat),
      (documents.map fun document => document.2.strings.length).sum +
        Library.objectsIn documents + total ≤
          documents.foldl (fun total document => total + document.2.size) total := by
    intro documents
    induction documents with
    | nil =>
      intro total
      simp [Library.objectsIn]
    | cons document rest ih =>
      intro total
      have hrest := ih (total + document.2.size)
      have hfirst := Json.strings_add_objects_le document.2
      simp only [Library.objectsIn, List.map_cons, List.sum_cons, List.foldl_cons] at hrest ⊢
      omega
  exact Nat.le_trans (Nat.le_add_right _ _) (hfold st.documents files.characters)

theorem twice_region_le (files : FileSystem) (st : Store) {starts : List Location}
    (hstarts : starts.length ≤ st.nodes.size) :
    2 * ((starts ++ Library.targets st.documents).length * Library.objectsIn st.documents) + 2 ≤
      (st.values files + st.nodes.size + 2) * (st.values files + st.nodes.size + 2) := by
  have hvalues := strings_add_objects_le files st
  have htargets := Library.length_targets_le st.documents
  generalize Library.objectsIn st.documents = objects at *
  have hplaces : (starts ++ Library.targets st.documents).length + objects ≤
      st.values files + st.nodes.size := by
    rw [List.length_append]
    omega
  generalize (starts ++ Library.targets st.documents).length = places at *
  generalize st.values files + st.nodes.size = bound at *
  have hsquare : (places + objects) ^ 2 ≤ bound ^ 2 := Nat.pow_le_pow_left hplaces 2
  calc 2 * (places * objects) + 2
      ≤ 4 * places * objects + 2 := by
        rw [Nat.mul_assoc 4]
        omega
    _ ≤ (places + objects) ^ 2 + 2 := Nat.add_le_add_right (four_mul_le_sq_add _ _) 2
    _ ≤ (bound + 2) * (bound + 2) := by
        have hexpand : (bound + 2) * (bound + 2) = bound ^ 2 + 4 * bound + 4 := by ring
        omega

end Store

end SchemaBeans
