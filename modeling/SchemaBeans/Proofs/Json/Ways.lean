import SchemaBeans.Proofs.Json.Strings

/-! # Ways down through a value

The objects inside an object that are reached through objects alone are found along finitely many
ways, one for each of them. The ways and the strings of a value are no more than the values that it
consists of. -/
namespace SchemaBeans.Json

mutual

/-- The values that a value consists of, itself included. -/
def parts : Json → List Json
  | array items => array items :: partsOfItems items
  | object members => object members :: partsOfMembers members
  | other => [other]

def partsOfItems : List Json → List Json
  | [] => []
  | item :: rest => parts item ++ partsOfItems rest

def partsOfMembers : Members → List Json
  | [] => []
  | (_, value) :: rest => parts value ++ partsOfMembers rest

end

mutual

/-- The names that lead down to each object through objects alone. -/
def ways : Json → List (List String)
  | object members => [] :: waysOfMembers members
  | _ => []

def waysOfMembers : Members → List (List String)
  | [] => []
  | (name, value) :: rest => (ways value).map (name :: ·) ++ waysOfMembers rest

end

def string? : Json → Option String
  | string s => some s
  | _ => none

/-- The strings in a value. -/
def strings (v : Json) : List String := v.parts.filterMap string?

/-- How many objects a value consists of. -/
def objects (v : Json) : Nat := v.parts.countP isObject

variable {v w part : Json} {s name : String} {items : List Json} {members : Members}

mutual

theorem length_parts : ∀ v : Json, v.parts.length = v.size
  | .array items => by
    rw [parts, size, List.length_cons, length_partsOfItems items, Nat.add_comm]
  | .object members => by
    rw [parts, size, List.length_cons, length_partsOfMembers members, Nat.add_comm]
  | .string _ => rfl
  | .null => rfl
  | .bool _ => rfl
  | .number _ => rfl

theorem length_partsOfItems : ∀ items : List Json, (partsOfItems items).length = sizeItems items
  | [] => rfl
  | item :: rest => by
    rw [partsOfItems, sizeItems, List.length_append, length_parts item, length_partsOfItems rest]

theorem length_partsOfMembers : ∀ members : Members,
    (partsOfMembers members).length = sizeMembers members
  | [] => rfl
  | (_, value) :: rest => by
    rw [partsOfMembers, sizeMembers, List.length_append, length_parts value,
      length_partsOfMembers rest]

end

theorem mem_parts_self (v : Json) : v ∈ v.parts := by
  cases v <;> exact List.mem_cons_self

theorem sublist_partsOfItems (hv : v ∈ items) : v.parts.Sublist (partsOfItems items) := by
  induction items with
  | nil => cases hv
  | cons item rest ih =>
    rw [partsOfItems]
    rcases List.mem_cons.mp hv with rfl | hv
    · exact List.sublist_append_left _ _
    · exact (ih hv).trans (List.sublist_append_right _ _)

theorem sublist_partsOfMembers {m : String × Json} (hm : m ∈ members) :
    m.2.parts.Sublist (partsOfMembers members) := by
  induction members with
  | nil => cases hm
  | cons member rest ih =>
    rw [partsOfMembers]
    rcases List.mem_cons.mp hm with rfl | hm
    · exact List.sublist_append_left _ _
    · exact (ih hm).trans (List.sublist_append_right _ _)

theorem sublist_step? (h : v.step? name = some part) : part.parts.Sublist v.parts := by
  cases v with
  | object members => exact (sublist_partsOfMembers (mem_of_lookup h)).cons _
  | array items =>
    obtain ⟨i, -, hi⟩ := Option.bind_eq_some_iff.mp h
    exact (sublist_partsOfItems (List.mem_of_getElem? hi)).cons _
  | _ => cases h

theorem sublist_descend? : ∀ {segments : List String} {v : Json},
    v.descend? segments = some part → part.parts.Sublist v.parts
  | [], v, h => by
    cases h
    exact List.Sublist.refl _
  | segment :: rest, v, h => by
    rw [descend?_cons] at h
    obtain ⟨next, hnext, hrest⟩ := Option.bind_eq_some_iff.mp h
    exact (sublist_descend? hrest).trans (sublist_step? hnext)

theorem sublist_lookup? {pointer : String} (h : v.lookup? pointer = some part) :
    part.parts.Sublist v.parts := by
  obtain ⟨segments, -, hpart⟩ := Option.bind_eq_some_iff.mp h
  exact sublist_descend? hpart

theorem Holds.mem_parts (h : Holds s v) : .string s ∈ v.parts := by
  induction h with
  | string => exact List.mem_cons_self
  | item hv _ ih => exact List.mem_cons_of_mem _ ((sublist_partsOfItems hv).subset ih)
  | member hm _ ih => exact List.mem_cons_of_mem _ ((sublist_partsOfMembers hm).subset ih)

theorem Holds.mem_strings (h : Holds s v) : s ∈ v.strings :=
  List.mem_filterMap.mpr ⟨_, h.mem_parts, rfl⟩

theorem objects_lookup?_le {pointer : String} (h : v.lookup? pointer = some part) :
    part.objects ≤ v.objects := (sublist_lookup? h).countP_le

/-- No value is both a string and an object. -/
theorem strings_add_objects_le (v : Json) : v.strings.length + v.objects ≤ v.size := by
  have hall : ∀ values : List Json,
      (values.filterMap string?).length + values.countP isObject ≤ values.length := by
    intro values
    induction values with
    | nil => exact Nat.le_refl _
    | cons value rest ih =>
      rw [List.filterMap_cons, List.countP_cons, List.length_cons]
      cases value <;> simp [string?, isObject] <;> omega
  exact Nat.le_trans (hall v.parts) (Nat.le_of_eq (length_parts v))

mutual

theorem length_ways_le : ∀ v : Json, v.ways.length ≤ v.parts.countP isObject
  | .object members => by
    have h := length_waysOfMembers_le members
    simp only [ways, parts, List.length_cons, List.countP_cons, isObject, if_true]
    omega
  | .array _ => Nat.zero_le _
  | .string _ => Nat.zero_le _
  | .null => Nat.zero_le _
  | .bool _ => Nat.zero_le _
  | .number _ => Nat.zero_le _

theorem length_waysOfMembers_le : ∀ members : Members,
    (waysOfMembers members).length ≤ (partsOfMembers members).countP isObject
  | [] => Nat.le_refl _
  | (_, value) :: rest => by
    have hvalue := length_ways_le value
    have hrest := length_waysOfMembers_le rest
    simp only [waysOfMembers, partsOfMembers, List.length_append, List.length_map,
      List.countP_append]
    omega

end

/-- The names lead down to the part, and through objects alone. -/
def Through (v : Json) : List String → Json → Prop
  | [], part => part = v
  | name :: rest, part => ∃ members next, v = .object members ∧ members.lookup name = some next ∧
      Through next rest part

theorem Through.append {rest : List String} : ∀ {names : List String} {v : Json},
    Through v names w → Through w rest part → Through v (names ++ rest) part
  | [], v, h, k => by
    cases h
    exact k
  | name :: names, v, h, k => by
    obtain ⟨members, next, hv, hnext, hrest⟩ := h
    exact ⟨members, next, hv, hnext, hrest.append k⟩

theorem Through.descend? : ∀ {names : List String} {v : Json},
    Through v names part → v.descend? names = some part
  | [], v, h => by
    cases h
    rfl
  | name :: names, v, h => by
    obtain ⟨members, next, rfl, hnext, hrest⟩ := h
    rw [descend?_cons]
    exact Option.bind_eq_some_iff.mpr ⟨next, hnext, hrest.descend?⟩

theorem mem_waysOfMembers {names : List String} (hlookup : members.lookup name = some v)
    (h : names ∈ v.ways) : name :: names ∈ waysOfMembers members := by
  induction members with
  | nil => cases hlookup
  | cons member rest ih =>
    obtain ⟨key, value⟩ := member
    rw [waysOfMembers, List.mem_append]
    rw [List.lookup_cons] at hlookup
    by_cases hkey : name = key
    · subst hkey
      simp only [beq_self_eq_true, Option.some.injEq] at hlookup
      subst hlookup
      exact Or.inl (List.mem_map_of_mem h)
    · simp only [beq_eq_false_iff_ne.mpr hkey] at hlookup
      exact Or.inr (ih hlookup)

theorem Through.mem_ways : ∀ {names : List String} {v : Json},
    Through v names (.object members) → names ∈ v.ways
  | [], v, h => by
    cases h
    exact List.mem_cons_self
  | name :: names, v, h => by
    obtain ⟨others, next, rfl, hnext, hrest⟩ := h
    exact List.mem_cons_of_mem _ (mem_waysOfMembers hnext hrest.mem_ways)

end SchemaBeans.Json
