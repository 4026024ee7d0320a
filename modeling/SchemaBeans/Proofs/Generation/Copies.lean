import SchemaBeans.Generation.AllOf
import SchemaBeans.Proofs.Keywords.Members
import SchemaBeans.Proofs.Store.Library

/-! # Copies of a class

A class may have a property that stands for the merge of the class itself. Merging a class with
nothing else makes a copy of it whose references are anchored, and the copy is a class of that sort
again, with the same scalars beside that property. -/
namespace SchemaBeans

namespace Json

open Keywords (combinators ties)

variable {base : String} {members out : Members} {target : Option String} {v w : Json}

/-- The schema of a value without parts: its `type` names one, and no combinator comes before it. -/
structure Atomic (members : Members) : Prop where
  distinct : Distinct members
  lacks : Lacks combinators members
  type : ∃ name primitive, members.lookup "type" = some (.string name) ∧
    Shape.ofType? name = some (.primitive primitive)

/-- The merge of the one schema that a reference leads to. -/
def mergeOf (reference : String) : Json :=
  .object [("allOf", .array [.object [("$ref", .string reference)]])]

/-- The schema of a class at a place that extends nothing and heads no family: its properties are
scalars, but for one that stands for the merge of what is found at that place. -/
structure Recursive (place : Location) (key : String) (members properties : Members) : Prop where
  distinct : Distinct members
  lacks : Lacks (combinators ++ ties) members
  type : members.lookup "type" = none ∨ members.lookup "type" = some (.string "object")
  listed : members.lookup "properties" = some (.object properties)
  apart : Distinct properties
  self : ∃ reference, properties.lookup key = some (mergeOf reference) ∧
    Location.ofReference place.document reference = .ok place
  scalars : ∀ other value, other ≠ key → properties.lookup other = some value →
    ∃ members, value = .object members ∧ Atomic members

theorem anchorMembers_names (h : anchorMembers base target members = .ok out) :
    out.map (·.1) = members.map (·.1) := by
  induction members generalizing out with
  | nil =>
    rw [anchorMembers] at h
    cases h
    rfl
  | cons member rest ih =>
    obtain ⟨y, others, rfl, -, hothers⟩ := anchorMembers_cons h
    rw [List.map_cons, List.map_cons, ih hothers]

theorem Distinct.anchored (h : Distinct members)
    (hout : anchorMembers base target members = .ok out) : Distinct out := by
  unfold Distinct
  rw [anchorMembers_names hout]
  exact h

theorem Lacks.anchored {names : List String} (h : Lacks names members)
    (hout : anchorMembers base target members = .ok out) : Lacks names out := by
  intro name hname
  rw [lookup_eq_none, anchorMembers_names hout, ← lookup_eq_none]
  exact h name hname

theorem Anchored.string {name s : String} (h : Anchored base none name (.string s) v) :
    v = .string s := by
  cases h with
  | data => rfl
  | reference _ _ htarget => cases htarget
  | value _ _ hy =>
    unfold anchor at hy
    cases hy
    rfl

theorem anchorMembers_given {name : String} (hout : anchorMembers base target members = .ok out)
    (h : members.lookup name = some v) :
    ∃ w, out.lookup name = some w ∧ Anchored base target name v w := by
  rcases anchorMembers_lookup hout name with ⟨hnone, -⟩ | ⟨x, y, hx, hy, hanchored⟩
  · rw [h] at hnone
    cases hnone
  · rw [h] at hx
    cases hx
    exact ⟨y, hy, hanchored⟩

theorem anchorMembers_string {name s : String} (hout : anchorMembers base none members = .ok out)
    (h : members.lookup name = some (.string s)) : out.lookup name = some (.string s) := by
  obtain ⟨w, hw, hanchored⟩ := anchorMembers_given hout h
  rw [hw, hanchored.string]

theorem anchor_plain (hplain : ∀ reference, members.lookup "$ref" ≠ some (.string reference))
    (h : (object members).anchor base = .ok w) :
    ∃ out, w = object out ∧ anchorMembers base none members = .ok out := by
  obtain ⟨target, out, htarget, hout, rfl⟩ := anchor_object h
  have hnone : target? base members = .ok none := by
    unfold target?
    split
    · rename_i reference hreference
      exact absurd hreference (hplain reference)
    · rfl
  rw [hnone] at htarget
  cases htarget
  exact ⟨out, rfl, hout⟩

theorem Atomic.anchored {name : String} (h : Atomic members)
    (hv : Anchored base none name (.object members) v) :
    ∃ out, v = .object out ∧ Atomic out := by
  cases hv with
  | data => exact ⟨members, rfl, h⟩
  | reference _ _ htarget => cases htarget
  | value _ _ hy =>
    have hplain : members.lookup "$ref" = none := h.lacks "$ref" (by simp [combinators])
    obtain ⟨out, rfl, hout⟩ := anchor_plain (by simp [hplain]) hy
    obtain ⟨type, primitive, htype, hprimitive⟩ := h.type
    exact ⟨out, rfl, h.distinct.anchored hout, h.lacks.anchored hout,
      type, primitive, anchorMembers_string hout htype, hprimitive⟩

theorem anchor_mergeOf {reference : String} {place : Location}
    (h : Location.ofReference base reference = .ok place) :
    (mergeOf reference).anchor base = .ok (mergeOf place.text) := by
  have hinner : (object [("$ref", .string reference)]).anchor base =
      .ok (object [("$ref", .string place.text)]) := by
    have hlookup : [("$ref", Json.string reference)].lookup "$ref" = some (.string reference) := rfl
    rw [anchor]
    simp only [hlookup, h]
    rfl
  have hitems : (array [object [("$ref", .string reference)]]).anchor base =
      .ok (array [object [("$ref", .string place.text)]]) := by
    rw [anchor, anchorItems, hinner, anchorItems]
    rfl
  have hlookup : [("allOf", array [object [("$ref", .string reference)]])].lookup "$ref" = none :=
    rfl
  rw [mergeOf, anchor]
  simp only [hlookup]
  rw [anchorMembers, hitems, anchorMembers]
  · rfl
  · intro other hother
    cases hother

section Anchored

variable {place : Location} {key : String} {properties listed : Members}

/-- No property is a mere string, so none is taken for a reference. -/
theorem Recursive.isObject (h : Recursive place key members properties) {name : String}
    (hv : properties.lookup name = some v) : v.isObject := by
  by_cases hname : name = key
  · obtain ⟨reference, hself, -⟩ := h.self
    rw [← hname, hv] at hself
    cases hself
    rfl
  · obtain ⟨members, rfl, -⟩ := h.scalars name v hname hv
    rfl

theorem Recursive.anchored_self (h : Recursive place key members properties)
    (hplace : Location.ofReference place.document place.text = .ok place)
    (hlisted : anchorMembers place.document none properties = .ok listed) :
    ∃ reference, listed.lookup key = some (mergeOf reference) ∧
      Location.ofReference place.document reference = .ok place := by
  obtain ⟨reference, hself, hreference⟩ := h.self
  obtain ⟨w, hw, hanchored⟩ := anchorMembers_given hlisted hself
  cases hanchored with
  | data => exact ⟨reference, hw, hreference⟩
  | reference _ _ htarget => cases htarget
  | value _ _ hmerge =>
    rw [anchor_mergeOf hreference] at hmerge
    cases hmerge
    exact ⟨place.text, hw, hplace⟩

theorem Recursive.anchored_scalars (h : Recursive place key members properties)
    (hlisted : anchorMembers base none properties = .ok listed) {name : String} (hname : name ≠ key)
    (hw : listed.lookup name = some w) : ∃ members, w = object members ∧ Atomic members := by
  rcases anchorMembers_lookup hlisted name with ⟨-, hnone⟩ | ⟨x, y, hx, hy, hanchored⟩
  · rw [hw] at hnone
    cases hnone
  · rw [hw] at hy
    cases hy
    obtain ⟨members, rfl, hscalar⟩ := h.scalars name x hname hx
    exact hscalar.anchored hanchored

/-- Anchoring keeps a class of this sort, if the text of its place leads there. -/
theorem Recursive.anchored (h : Recursive place key members properties)
    (hplace : Location.ofReference place.document place.text = .ok place)
    (hw : (object members).anchor place.document = .ok w) :
    ∃ copied listed, w = object copied ∧ Recursive place key copied listed := by
  have hplain : members.lookup "$ref" = none := h.lacks "$ref" (by simp [combinators])
  obtain ⟨copied, rfl, hcopied⟩ := anchor_plain (by simp [hplain]) hw
  obtain ⟨y, hy, hanchored⟩ := anchorMembers_given hcopied h.listed
  have hlisted : ∃ listed, y = object listed ∧
      anchorMembers place.document none properties = .ok listed := by
    cases hanchored with
    | data hdata => exact absurd hdata (by decide)
    | reference _ _ htarget => cases htarget
    | value _ _ hy =>
      refine anchor_plain (fun reference hstring => ?_) hy
      cases h.isObject hstring
  obtain ⟨listed, rfl, hlisted⟩ := hlisted
  refine ⟨copied, listed, rfl, h.distinct.anchored hcopied, h.lacks.anchored hcopied, ?_, hy,
    h.apart.anchored hlisted, h.anchored_self hplace hlisted,
    fun _ _ hname hvalue => h.anchored_scalars hlisted hname hvalue⟩
  refine h.type.imp (fun hnone => ?_) fun hobject => anchorMembers_string hcopied hobject
  rw [lookup_eq_none, anchorMembers_names hcopied, ← lookup_eq_none]
  exact hnone

end Anchored

theorem put_absent {members : Members} {name : String} (h : name ∉ members.map (·.1)) (v : Json) :
    Members.put members name v = members ++ [(name, v)] := by
  induction members with
  | nil => rfl
  | cons member rest ih =>
    rw [List.map_cons, List.mem_cons, not_or] at h
    rw [Members.put, if_neg (Ne.symm h.1), ih h.2, List.cons_append]

theorem mergeMembers_fresh : ∀ (source target : Members), Distinct (target ++ source) →
    mergeMembers target source = target ++ source
  | [], target, _ => by rw [mergeMembers, List.append_nil]
  | (name, v) :: rest, target, h => by
    have hnew : name ∉ target.map (·.1) := by
      unfold Distinct at h
      rw [List.map_append, List.nodup_append] at h
      exact fun hmem => h.2.2 name hmem name (by simp) rfl
    have hlookup : target.lookup name = none := lookup_eq_none.mpr hnew
    rw [mergeMembers]
    simp only [hlookup]
    rw [put_absent hnew, mergeMembers_fresh rest _ (by simpa using h), List.append_assoc,
      List.singleton_append]

theorem merge_nothing (h : Distinct members) :
    (object []).merge (object members) = object members := by
  rw [merge]
  exact congrArg object (mergeMembers_fresh members [] h)

theorem remove_absent {name : String} (h : members.lookup name = none) :
    Members.remove members name = members := by
  have hnone : members.findIdx? (·.1 == name) = none := by
    rw [List.findIdx?_eq_none_iff]
    intro member hmember
    have hne := List.lookup_eq_none_iff.mp h member hmember
    rw [bne_iff_ne, ne_comm] at hne
    simpa using hne
  unfold Members.remove
  rw [hnone]

end Json

open Json Keywords

theorem Json.Recursive.withoutFamily {place : Location} {key : String}
    {members properties : Members} (h : Recursive place key members properties) :
    Drafting.withoutFamily (.object members) = .object members := by
  have hlacks : ∀ name ∈ ties, members.lookup name = none :=
    fun name hname => h.lacks name (List.mem_append_right _ hname)
  rw [Drafting.withoutFamily, remove_absent (hlacks "discriminator" (by decide)),
    remove_absent (hlacks "deserializationClassProperty" (by decide))]

section Reading

variable {place other : Location} {key : String} {members properties : Members} {k : Keywords}

theorem ofMembers_of_keywordsOf (h : Store.keywordsOf place (.object members) = .ok k) :
    ofMembers {} members = .ok k := by
  rcases Library.keywordsOf_cases h with ⟨hbool, -⟩ | ⟨_, heq, hread⟩
  · cases hbool
  · cases heq
    exact hread

/-- Keywords of a class with these properties that extends nothing and heads no family. -/
structure Keywords.Plain (k : Keywords) (properties : Members) : Prop where
  reference : k.reference = none
  shape : Shape.classify k = .ok .object
  superclass : k.superclass = none
  existing : k.existingJavaType = none
  family : k.family = none
  properties : k.properties = some properties

theorem combinators_missing (h : ofMembers {} members = .ok k)
    (hlacks : Lacks combinators members) :
    k.reference = none ∧ k.allOf = none ∧ k.oneOf = none ∧ k.anyOf = none ∧
      k.enumeration = none := by
  have hparts := readFrom_parts.1.missing hlacks h
  simpa only [Prod.mk.injEq] using hparts

theorem classify_type (h : ofMembers {} members = .ok k) (hdistinct : Distinct members)
    (hlacks : Lacks combinators members) {name : String} {shape : Shape}
    (hname : members.lookup "type" = some (.string name))
    (hshape : Shape.ofType? name = some shape) : Shape.classify k = .ok shape := by
  obtain ⟨-, hall, hone, hany, henum⟩ := combinators_missing h hlacks
  simp [Shape.classify, hall, hone, hany, henum, type_given hdistinct hname h,
    TypeKeyword.effective?, hshape]

theorem Json.Atomic.reads (h : Atomic members)
    (hread : Store.keywordsOf place (.object members) = .ok k) :
    k.reference = none ∧ ∃ primitive, Shape.classify k = .ok (.primitive primitive) := by
  have hmembers := ofMembers_of_keywordsOf hread
  obtain ⟨name, primitive, hname, hprimitive⟩ := h.type
  exact ⟨(combinators_missing hmembers h.lacks).1, primitive,
    classify_type hmembers h.distinct h.lacks hname hprimitive⟩

theorem Json.Recursive.reads (h : Recursive place key members properties)
    (hread : Store.keywordsOf other (.object members) = .ok k) : k.Plain properties := by
  have hmembers := ofMembers_of_keywordsOf hread
  have hproperties := properties_given h.distinct h.listed hmembers
  have hties := readFrom_parts.2.1.missing
    (fun name hname => h.lacks name (List.mem_append_right _ hname)) hmembers
  have hlacks : Lacks combinators members :=
    fun name hname => h.lacks name (List.mem_append_left _ hname)
  obtain ⟨hreference, hall, hone, hany, henum⟩ := combinators_missing hmembers hlacks
  simp only [Prod.mk.injEq] at hties
  refine ⟨hreference, ?_, hties.1, hties.2.1, hties.2.2, hproperties⟩
  rcases h.type with hnone | hobject
  · have htype : k.type = none := readFrom_parts.2.2.1.missing
      (fun name hname => by rw [List.mem_singleton.mp hname]; exact hnone) hmembers
    simp [Shape.classify, hall, hone, hany, henum, htype, hproperties]
  · exact classify_type hmembers h.distinct hlacks hobject rfl

theorem keywordsOf_mergeOf (place : Location) (reference : String) :
    Store.keywordsOf place (mergeOf reference) =
      .ok { allOf := some [.object [("$ref", .string reference)]] } := rfl

end Reading

end SchemaBeans
