import SchemaBeans.Generation.AllOf
import SchemaBeans.Proofs.Keywords.Members
import SchemaBeans.Proofs.Reference.Pointers
import SchemaBeans.Proofs.Store.Library

/-! # What stands at a location

A location holds a part of a document, a schema below another one, or the merge of an `allOf`.
The schema that the references from there lead to is settled by the documents alone: a merge
stands where no document has anything but a list, and what is below it is below one schema only. -/
namespace SchemaBeans

namespace Location

variable {a b : Location} {s t x y : String}

theorem below_append (place : Location) (first rest : List String) :
    place.below (first ++ rest) = (place.below first).below rest := by
  simp [below, List.foldl_append]

theorem below_one_inj (h : a.below [s] = b.below [t]) : a = b ∧ s = t := by
  obtain ⟨hdocument, hpointer⟩ := Location.mk.inj h
  obtain ⟨habove, hlast⟩ := Pointer.push_inj hpointer
  have hsame := congrArg Pointer.unescape hlast
  rw [Pointer.unescape_escape, Pointer.unescape_escape] at hsame
  refine ⟨?_, String.toList_inj.mp hsame⟩
  cases a
  cases b
  simp_all

theorem below_two_one (h : a.below [s, x] = b.below [y]) : a.below [s] = b ∧ x = y := by
  rw [show [s, x] = [s] ++ [x] from rfl, below_append] at h
  exact below_one_inj h

theorem below_two_inj (h : a.below [s, x] = b.below [t, y]) : a = b ∧ s = t ∧ x = y := by
  rw [show [t, y] = [t] ++ [y] from rfl, below_append] at h
  obtain ⟨hinner, hlast⟩ := below_two_one h
  exact ⟨(below_one_inj hinner).1, (below_one_inj hinner).2, hlast⟩

theorem length_lt_below_one (place : Location) (s : String) :
    place.pointer.length < (place.below [s]).pointer.length := by
  show place.pointer.length < (Pointer.push place.pointer s).length
  unfold Pointer.push
  rw [String.length_ofList, List.length_append, List.length_cons, String.length_toList]
  omega

theorem length_le_below (place : Location) (segments : List String) :
    place.pointer.length ≤ (place.below segments).pointer.length := by
  induction segments generalizing place with
  | nil => exact Nat.le_refl _
  | cons segment rest ih =>
    rw [show segment :: rest = [segment] ++ rest from rfl, below_append]
    exact Nat.le_trans (Nat.le_of_lt (length_lt_below_one place segment)) (ih _)

theorem below_ne_root {place root : Location} {name : String} {rest : List String}
    (hroot : root.pointer = "") : root ≠ place.below (name :: rest) := by
  rintro rfl
  have hrest := length_le_below (place.below [name]) rest
  rw [← below_append, List.singleton_append, hroot] at hrest
  exact absurd (Nat.lt_of_lt_of_le (length_lt_below_one place name) hrest) (Nat.not_lt_zero _)

end Location

theorem toString_ne {i : Nat} {s : String} (h : s.toList.all Char.isDigit = false) :
    toString i ≠ s := by
  rintro rfl
  rw [Nat.toString_eq_repr, Nat.repr_eq_ofList_toDigits, String.toList_ofList,
    List.all_eq_false] at h
  obtain ⟨c, hc, hnot⟩ := h
  exact hnot (Nat.isDigit_of_mem_toDigits (by decide) (by decide) hc)

/-- The segments that lead from a schema to one that it is made of. -/
inductive Subschema : List String → Prop
  | superclass : Subschema ["extends"]
  | property (key : String) : Subschema ["properties", key]
  | additional : Subschema ["additionalProperties"]
  | items : Subschema ["items"]
  | oneOf (index : Nat) : Subschema ["oneOf", toString index]
  | anyOf (index : Nat) : Subschema ["anyOf", toString index]
  | allOf (index : Nat) : Subschema ["allOf", toString index]

theorem Subschema.head {segments : List String} (h : Subschema segments) :
    ∃ name rest, segments = name :: rest ∧ Pointer.index? name = none := by
  cases h <;> exact ⟨_, _, rfl, by decide⟩

theorem Subschema.cases_length {segments : List String} (h : Subschema segments) :
    (∃ last, segments = [last] ∧ last.toList.all Char.isDigit = false) ∨
      ∃ first second, segments = [first, second] := by
  cases h with
  | superclass | additional | items => exact .inl ⟨_, rfl, by decide⟩
  | _ => exact .inr ⟨_, _, rfl⟩

theorem not_subschema_allOf : ¬ Subschema ["allOf"] := by
  intro h
  generalize hsegments : ["allOf"] = segments at h
  cases h <;> simp at hsegments

theorem Json.descend?_array {items : List Json} {name : String} {rest : List String}
    (h : Pointer.index? name = none) : (Json.array items).descend? (name :: rest) = none := by
  simp [Json.descend?, List.foldlM_cons, Json.step?, h]

/-- Something that is known of a location. -/
inductive Finding where
  | value (place : Location) (content : Json)
  | schema (place location : Location) (content : Json)
  | members (place : Location) (count : Nat) (sofar : Drafting.AllOf)

namespace Library

open Drafting

def TakenAsParent (place location : Location) (keywords : Keywords) (sofar : AllOf) : Prop :=
  location ≠ place ∧ sofar.settled = false ∧ keywords.family.isSome = true

def withMember (place location : Location) (sofar : AllOf) (content : Json) : AllOf :=
  { sofar with
    merged := sofar.merged.merge (if location = place then content else withoutFamily content) }

inductive Finds (lib : Library) : Finding → Prop
  | document {place : Location} {content : Json} (h : lib.Contains place content) :
      Finds lib (.value place content)
  | child {place : Location} {content part : Json} {segments : List String}
      (hparent : Finds lib (.schema place place content)) (hsegments : Subschema segments)
      (hpart : content.descend? segments = some part) :
      Finds lib (.value (place.below segments) part)
  | merge {place : Location} {content own : Json} {keywords : Keywords} {all : AllOf}
      (hschema : Finds lib (.schema place place content))
      (hread : Store.keywordsOf place content = .ok keywords)
      (hallOf : keywords.allOf.isSome = true)
      (hmembers : Finds lib (.members place (keywords.allOf.getD []).length all))
      (hown : (ownContent content).anchor place.document = .ok own) :
      Finds lib (.value (place.below ["allOf"]) ((extended all.parent all.merged).merge own))
  | plain {place : Location} {content : Json} {keywords : Keywords}
      (hvalue : Finds lib (.value place content))
      (hread : Store.keywordsOf place content = .ok keywords)
      (hplain : keywords.reference = none) : Finds lib (.schema place place content)
  | refers {place target location : Location} {content found : Json} {keywords : Keywords}
      {reference : String} (hvalue : Finds lib (.value place content))
      (hread : Store.keywordsOf place content = .ok keywords)
      (href : keywords.reference = some reference)
      (htarget : Location.ofReference place.document reference = .ok target)
      (hschema : Finds lib (.schema target location found)) :
      Finds lib (.schema place location found)
  | nothing {place : Location} {content : Json}
      (hschema : Finds lib (.schema place place content)) :
      Finds lib (.members place 0
        ⟨.object [], ((ownContent content).member? "extends").isSome, none⟩)
  | parent {place location : Location} {content : Json} {keywords : Keywords} {count : Nat}
      {sofar : AllOf} (hbefore : Finds lib (.members place count sofar))
      (hmember : Finds lib (.schema (place.below ["allOf", toString count]) location content))
      (hread : Store.keywordsOf location content = .ok keywords)
      (hparent : TakenAsParent (place.below ["allOf", toString count]) location keywords sofar) :
      Finds lib (.members place (count + 1)
        { sofar with settled := true, parent := some location })
  | part {place location : Location} {content out : Json} {keywords : Keywords} {count : Nat}
      {sofar : AllOf} (hbefore : Finds lib (.members place count sofar))
      (hmember : Finds lib (.schema (place.below ["allOf", toString count]) location content))
      (hread : Store.keywordsOf location content = .ok keywords)
      (hparent : ¬ TakenAsParent (place.below ["allOf", toString count]) location keywords sofar)
      (hallOf : keywords.allOf.isSome = false)
      (hcontent : content.anchor location.document = .ok out) :
      Finds lib (.members place (count + 1)
        (withMember (place.below ["allOf", toString count]) location sofar out))
  | nested {place location inner : Location} {content merged out : Json} {keywords : Keywords}
      {count : Nat} {sofar : AllOf} (hbefore : Finds lib (.members place count sofar))
      (hmember : Finds lib (.schema (place.below ["allOf", toString count]) location content))
      (hread : Store.keywordsOf location content = .ok keywords)
      (hparent : ¬ TakenAsParent (place.below ["allOf", toString count]) location keywords sofar)
      (hallOf : keywords.allOf.isSome = true)
      (hinner : Finds lib (.schema (location.below ["allOf"]) inner merged))
      (hcontent : merged.anchor inner.document = .ok out) :
      Finds lib (.members place (count + 1)
        (withMember (place.below ["allOf", toString count]) location sofar out))

/-- No object in a document has two members of one name. -/
def KeysOnce (lib : Library) : Prop :=
  ∀ place members, lib.Contains place (.object members) → Json.Distinct members

variable {lib : Library} {place location target : Location} {content part found : Json}
  {keywords : Keywords} {segments : List String}

def Readable (place : Location) (content : Json) : Prop :=
  ∃ keywords, Store.keywordsOf place content = .ok keywords

theorem not_readable_array (place : Location) (items : List Json) :
    ¬ Readable place (.array items) := by
  rintro ⟨keywords, hread⟩
  cases hread

/-- A location where no document has anything but a list. -/
def Bare (lib : Library) (place : Location) : Prop :=
  ∀ content, lib.Contains place content → ∃ items, content = .array items

theorem Bare.not_contains (h : lib.Bare place) (hread : Readable place content) :
    ¬ lib.Contains place content := by
  intro hcontains
  obtain ⟨items, rfl⟩ := h content hcontains
  exact not_readable_array place items hread

theorem Bare.below {name : String} {rest : List String} (h : lib.Bare place)
    (hname : Pointer.index? name = none) : ¬ lib.Contains (place.below (name :: rest)) part := by
  intro hbelow
  obtain ⟨content, hcontent, hdescend⟩ := contains_above hbelow
  obtain ⟨items, rfl⟩ := h content hcontent
  rw [Json.descend?_array hname] at hdescend
  cases hdescend

theorem Bare.below_subschema (h : lib.Bare place) (hsegments : Subschema segments) :
    ¬ lib.Contains (place.below segments) part := by
  obtain ⟨name, rest, rfl, hname⟩ := hsegments.head
  exact h.below hname

theorem bare_merge (hkeys : lib.KeysOnce) (hplace : lib.Contains place content ∨ lib.Bare place)
    (hread : Store.keywordsOf place content = .ok keywords)
    (hallOf : keywords.allOf.isSome = true) : lib.Bare (place.below ["allOf"]) := by
  intro found hfound
  rcases hplace with hcontent | hbare
  · obtain ⟨above, habove, hdescend⟩ := contains_above hfound
    obtain rfl := contains_unique hcontent habove
    rcases keywordsOf_cases hread with ⟨rfl, -⟩ | ⟨members, rfl, hmembers⟩
    · cases hdescend
    · obtain ⟨items, hitems⟩ := Keywords.allOf_given (hkeys _ _ hcontent) hmembers hallOf
      refine ⟨items, ?_⟩
      simpa [Json.descend?, Json.step?, hitems] using hdescend.symm
  · exact absurd hfound (hbare.below (by decide))

/-- A schema stands in a document, or where no document has one. -/
def Placed (lib : Library) : Finding → Prop
  | .value place content => lib.Contains place content ∨ lib.Bare place
  | .schema _ location content => lib.Contains location content ∨ lib.Bare location
  | .members _ _ _ => True

theorem Finds.placed {finding : Finding} (hkeys : lib.KeysOnce) (h : lib.Finds finding) :
    lib.Placed finding := by
  induction h with
  | document h => exact .inl h
  | child _ hsegments hpart ih =>
    rcases ih with hcontent | hbare
    · exact .inl (hcontent.below _ hpart)
    · exact .inr fun _ hfound => absurd hfound (hbare.below_subschema hsegments)
  | merge _ hread hallOf _ _ ih => exact .inr (bare_merge hkeys ih hread hallOf)
  | plain _ _ _ ih => exact ih
  | refers _ _ _ _ _ _ ih => exact ih
  | nothing | parent | part | nested => trivial

/-- The end of the references is a schema at a location of its own. -/
theorem Finds.settled (h : lib.Finds (.schema place location content)) :
    lib.Finds (.value location content) ∧ ∃ keywords,
      Store.keywordsOf location content = .ok keywords ∧ keywords.reference = none := by
  generalize hfinding : Finding.schema place location content = finding at h
  induction h generalizing place with
  | plain hvalue hread hplain =>
    cases hfinding
    exact ⟨hvalue, _, hread, hplain⟩
  | refers _ _ _ _ _ _ ih =>
    cases hfinding
    exact ih rfl
  | _ => cases hfinding

/-- How a value that no document has came to its location. -/
inductive Grown (lib : Library) : Location → Json → Prop
  | child {above : Location} {content part : Json} {segments : List String}
      (hbare : lib.Bare above) (hparent : lib.Finds (.schema above above content))
      (hsegments : Subschema segments) (hpart : content.descend? segments = some part) :
      Grown lib (above.below segments) part
  | merge {above : Location} {content own : Json} {keywords : Keywords} {all : AllOf}
      (hschema : lib.Finds (.schema above above content))
      (hread : Store.keywordsOf above content = .ok keywords)
      (hallOf : keywords.allOf.isSome = true)
      (hmembers : lib.Finds (.members above (keywords.allOf.getD []).length all))
      (hown : (ownContent content).anchor above.document = .ok own) :
      Grown lib (above.below ["allOf"]) ((extended all.parent all.merged).merge own)

theorem Finds.grown (hkeys : lib.KeysOnce) (h : lib.Finds (.value place content)) :
    lib.Contains place content ∨ lib.Bare place ∧ lib.Grown place content := by
  have hplaced := h.placed hkeys
  cases h with
  | document h => exact .inl h
  | child hparent hsegments hpart =>
    rcases hparent.placed hkeys with hcontent | habove
    · exact .inl (hcontent.below _ hpart)
    · exact hplaced.imp_right fun hbare => ⟨hbare, .child habove hparent hsegments hpart⟩
  | merge hschema hread hallOf hmembers hown =>
    exact hplaced.imp_right fun hbare => ⟨hbare, .merge hschema hread hallOf hmembers hown⟩

/-- Where no document has a schema, its `properties` are none. Otherwise a schema would stand at the
`properties` of a schema above, and so on without an end. -/
theorem not_properties (hkeys : lib.KeysOnce) (hbare : lib.Bare place)
    (hschema : lib.Finds (.schema place place content)) :
    ¬ lib.Finds (.schema (place.below ["properties"]) (place.below ["properties"]) found) := by
  intro hbelow
  induction hlength : place.pointer.length using Nat.strong_induction_on
    generalizing place content found with
  | _ n ih =>
  subst hlength
  obtain ⟨hvalue, keywords, hread, -⟩ := hbelow.settled
  rcases hvalue.grown hkeys with hcontains | ⟨-, hgrown⟩
  · exact hbare.below (by decide) hcontains
  generalize hplace : place.below ["properties"] = lower at hgrown
  cases hgrown with
  | child habove hparent hsegments hpart =>
    cases hsegments with
    | property key =>
      obtain ⟨hsame, -⟩ := Location.below_two_one hplace.symm
      rw [← hsame] at hschema
      refine ih _ ?_ habove hparent hschema rfl
      rw [← hsame]
      exact Location.length_lt_below_one _ _
    | oneOf | anyOf | allOf =>
      exact absurd (Location.below_two_one hplace.symm).2 (toString_ne (by decide))
    | superclass | additional | items =>
      exact absurd (Location.below_one_inj hplace).2 (by decide)
  | merge => exact absurd (Location.below_one_inj hplace).2 (by decide)

theorem not_one_two (hkeys : lib.KeysOnce) {other : Location} {first second last : String}
    (hpair : Subschema [first, second]) (hbare : lib.Bare other)
    (hlast : last.toList.all Char.isDigit = false)
    (hother : lib.Finds (.schema other other content))
    (hschema : lib.Finds (.schema place place found)) :
    place.below [last] ≠ other.below [first, second] := by
  intro heq
  obtain ⟨hsame, hsecond⟩ := Location.below_two_one heq.symm
  subst hsame
  cases hpair with
  | property key => exact not_properties hkeys hbare hother hschema
  | oneOf | anyOf | allOf => exact toString_ne hlast hsecond

theorem below_inj (hkeys : lib.KeysOnce) {other : Location} {rest : List String}
    (hbare : lib.Bare place) (kbare : lib.Bare other)
    (hschema : lib.Finds (.schema place place content))
    (kschema : lib.Finds (.schema other other found))
    (hsegments : Subschema segments) (hrest : Subschema rest)
    (heq : place.below segments = other.below rest) : place = other ∧ segments = rest := by
  rcases hsegments.cases_length with ⟨last, rfl, hlast⟩ | ⟨first, second, rfl⟩
  all_goals rcases hrest.cases_length with ⟨final, rfl, hfinal⟩ | ⟨third, fourth, rfl⟩
  · obtain ⟨rfl, rfl⟩ := Location.below_one_inj heq
    exact ⟨rfl, rfl⟩
  · exact absurd heq (not_one_two hkeys hrest kbare hlast kschema hschema)
  · exact absurd heq.symm (not_one_two hkeys hsegments hbare hfinal hschema kschema)
  · obtain ⟨rfl, rfl, rfl⟩ := Location.below_two_inj heq
    exact ⟨rfl, rfl⟩

theorem not_merge_child (hkeys : lib.KeysOnce) {other : Location} (hbare : lib.Bare other)
    (hother : lib.Finds (.schema other other content))
    (hschema : lib.Finds (.schema place place found)) (hsegments : Subschema segments) :
    place.below ["allOf"] ≠ other.below segments := by
  intro heq
  rcases hsegments.cases_length with ⟨last, rfl, -⟩ | ⟨first, second, rfl⟩
  · obtain ⟨-, rfl⟩ := Location.below_one_inj heq
    exact not_subschema_allOf hsegments
  · exact not_one_two hkeys hsegments hbare (by decide) hother hschema heq

/-- What becomes of the member that is taken in last. -/
inductive Takes (lib : Library) (place location : Location) (content : Json) (keywords : Keywords)
    (sofar : AllOf) : AllOf → Prop
  | parent (hparent : TakenAsParent place location keywords sofar) :
      Takes lib place location content keywords sofar
        { sofar with settled := true, parent := some location }
  | part {out : Json} (hparent : ¬ TakenAsParent place location keywords sofar)
      (hallOf : keywords.allOf.isSome = false)
      (hcontent : content.anchor location.document = .ok out) :
      Takes lib place location content keywords sofar (withMember place location sofar out)
  | nested {inner : Location} {merged out : Json}
      (hparent : ¬ TakenAsParent place location keywords sofar)
      (hallOf : keywords.allOf.isSome = true)
      (hinner : lib.Finds (.schema (location.below ["allOf"]) inner merged))
      (hcontent : merged.anchor inner.document = .ok out) :
      Takes lib place location content keywords sofar (withMember place location sofar out)

theorem Finds.last {count : Nat} {all : AllOf}
    (h : lib.Finds (.members place (count + 1) all)) : ∃ sofar location content keywords,
      lib.Finds (.members place count sofar) ∧
      lib.Finds (.schema (place.below ["allOf", toString count]) location content) ∧
      Store.keywordsOf location content = .ok keywords ∧
      lib.Takes (place.below ["allOf", toString count]) location content keywords sofar all := by
  cases h with
  | parent hbefore hmember hread hparent =>
    exact ⟨_, _, _, _, hbefore, hmember, hread, .parent hparent⟩
  | part hbefore hmember hread hparent hallOf hcontent =>
    exact ⟨_, _, _, _, hbefore, hmember, hread, .part hparent hallOf hcontent⟩
  | nested hbefore hmember hread hparent hallOf hinner hcontent =>
    exact ⟨_, _, _, _, hbefore, hmember, hread, .nested hparent hallOf hinner hcontent⟩

def Sole (lib : Library) : Finding → Prop
  | .value place content => Readable place content → ∀ other, Readable place other →
      lib.Finds (.value place other) → content = other
  | .schema place location content => ∀ other found, lib.Finds (.schema place other found) →
      location = other ∧ content = found
  | .members place count sofar => ∀ other, lib.Finds (.members place count other) → sofar = other

theorem child_sole {other : Json} (hkeys : lib.KeysOnce) (hbare : lib.Bare place)
    (hparent : lib.Finds (.schema place place content)) (hsegments : Subschema segments)
    (hpart : content.descend? segments = some part)
    (hone : lib.Sole (.schema place place content))
    (k : lib.Finds (.value (place.below segments) other)) : part = other := by
  rcases k.grown hkeys with hcontains | ⟨-, hgrown⟩
  · exact absurd hcontains (hbare.below_subschema hsegments)
  · generalize hplace : place.below segments = lower at hgrown
    cases hgrown with
    | child kbare kparent ksegments kpart =>
      obtain ⟨rfl, rfl⟩ := below_inj hkeys hbare kbare hparent kparent hsegments ksegments hplace
      obtain ⟨-, rfl⟩ := hone _ _ kparent
      exact Option.some.inj (hpart.symm.trans kpart)
    | merge kschema =>
      exact absurd hplace.symm (not_merge_child hkeys hbare hparent kschema hsegments)

theorem merge_sole {own other : Json} {all : AllOf} (hkeys : lib.KeysOnce)
    (hschema : lib.Finds (.schema place place content))
    (hread : Store.keywordsOf place content = .ok keywords) (hallOf : keywords.allOf.isSome = true)
    (hown : (ownContent content).anchor place.document = .ok own)
    (hone : lib.Sole (.schema place place content))
    (hmembers : lib.Sole (.members place (keywords.allOf.getD []).length all))
    (hother : Readable (place.below ["allOf"]) other)
    (k : lib.Finds (.value (place.below ["allOf"]) other)) :
    (extended all.parent all.merged).merge own = other := by
  have hbare := bare_merge hkeys (hschema.placed hkeys) hread hallOf
  rcases k.grown hkeys with hcontains | ⟨-, hgrown⟩
  · exact absurd hcontains (hbare.not_contains hother)
  · generalize hplace : place.below ["allOf"] = lower at hgrown
    cases hgrown with
    | child kbare kparent ksegments =>
      exact absurd hplace (not_merge_child hkeys kbare kparent hschema ksegments)
    | merge kschema kread kallOf kmembers kown =>
      obtain ⟨rfl, -⟩ := Location.below_one_inj hplace
      obtain ⟨-, rfl⟩ := hone _ _ kschema
      obtain rfl := Except.ok.inj (hread.symm.trans kread)
      obtain rfl := hmembers _ kmembers
      obtain rfl := Except.ok.inj (hown.symm.trans kown)
      rfl

theorem schema_sole {location : Location} {found : Json}
    (hread : Store.keywordsOf place content = .ok keywords)
    (hone : lib.Sole (.value place content)) (k : lib.Finds (.schema place location found)) :
    (keywords.reference = none ∧ place = location ∧ content = found) ∨
      ∃ reference target, keywords.reference = some reference ∧
        Location.ofReference place.document reference = .ok target ∧
        lib.Finds (.schema target location found) := by
  cases k with
  | plain kvalue kread kplain =>
    obtain rfl := hone ⟨_, hread⟩ _ ⟨_, kread⟩ kvalue
    obtain rfl := Except.ok.inj (hread.symm.trans kread)
    exact .inl ⟨kplain, rfl, rfl⟩
  | refers kvalue kread kref ktarget kschema =>
    obtain rfl := hone ⟨_, hread⟩ _ ⟨_, kread⟩ kvalue
    obtain rfl := Except.ok.inj (hread.symm.trans kread)
    exact .inr ⟨_, _, kref, ktarget, kschema⟩

theorem members_sole {location : Location} {count : Nat} {sofar all : AllOf}
    (hread : Store.keywordsOf location content = .ok keywords)
    (hbefore : lib.Sole (.members place count sofar))
    (hmember : lib.Sole (.schema (place.below ["allOf", toString count]) location content))
    (k : lib.Finds (.members place (count + 1) all)) :
    lib.Takes (place.below ["allOf", toString count]) location content keywords sofar all := by
  obtain ⟨other, holder, found, words, kbefore, kmember, kread, ktakes⟩ := k.last
  obtain rfl := hbefore _ kbefore
  obtain ⟨rfl, rfl⟩ := hmember _ _ kmember
  obtain rfl := Except.ok.inj (hread.symm.trans kread)
  exact ktakes

theorem Finds.sole {finding : Finding} (hkeys : lib.KeysOnce) (h : lib.Finds finding) :
    lib.Sole finding := by
  induction h with
  | @document place content h =>
    intro hread other hother k
    rcases k.grown hkeys with hcontains | ⟨hbare, -⟩
    · exact contains_unique h hcontains
    · exact absurd h (hbare.not_contains hread)
  | @child place content part segments hparent hsegments hpart ih =>
    intro hread other hother k
    rcases hparent.placed hkeys with hcontent | hbare
    · rcases k.grown hkeys with hcontains | ⟨hbare, -⟩
      · exact contains_unique (hcontent.below _ hpart) hcontains
      · exact absurd (hcontent.below _ hpart) (hbare.not_contains hread)
    · exact child_sole hkeys hbare hparent hsegments hpart ih k
  | merge hschema hread hallOf _ hown ih ihmembers =>
    exact fun _ other hother k => merge_sole hkeys hschema hread hallOf hown ih ihmembers hother k
  | plain _ hread hplain ih =>
    intro other found k
    rcases schema_sole hread ih k with ⟨-, hsame⟩ | ⟨reference, target, kref, -⟩
    · exact hsame
    · cases hplain.symm.trans kref
  | refers _ hread href htarget _ ih ihschema =>
    intro other found k
    rcases schema_sole hread ih k with ⟨kplain, -⟩ | ⟨reference, target, kref, ktarget, kschema⟩
    · cases href.symm.trans kplain
    · obtain rfl := Option.some.inj (href.symm.trans kref)
      obtain rfl := Except.ok.inj (htarget.symm.trans ktarget)
      exact ihschema _ _ kschema
  | nothing _ ih =>
    intro other k
    cases k with
    | nothing kschema =>
      obtain ⟨-, rfl⟩ := ih _ _ kschema
      rfl
  | parent _ _ hread hparent ih ihmember =>
    intro other k
    cases members_sole hread ih ihmember k with
    | parent => rfl
    | part kparent | nested kparent => exact absurd hparent kparent
  | part _ _ hread hparent hallOf hcontent ih ihmember =>
    intro other k
    cases members_sole hread ih ihmember k with
    | parent kparent => exact absurd kparent hparent
    | part _ _ kcontent => rw [Except.ok.inj (hcontent.symm.trans kcontent)]
    | nested _ kallOf => cases hallOf.symm.trans kallOf
  | nested _ _ hread hparent hallOf _ hcontent ih ihmember ihinner =>
    intro other k
    cases members_sole hread ih ihmember k with
    | parent kparent => exact absurd kparent hparent
    | part _ kallOf => cases hallOf.symm.trans kallOf
    | nested _ _ kinner kcontent =>
      obtain ⟨rfl, rfl⟩ := ihinner _ _ kinner
      rw [Except.ok.inj (hcontent.symm.trans kcontent)]

end Library

end SchemaBeans
