import SchemaBeans.Check
import SchemaBeans.Proofs.Binary64.Text

/-! # Objects inside a value

An instance is checked property by property, and after a property that asks for it the objects in
its value are checked too. -/
namespace SchemaBeans

/-- How many lists and sets stand around the innermost type. -/
def TypeRef.depth : TypeRef → Nat
  | list element => element.depth + 1
  | set element => element.depth + 1
  | _ => 0

namespace Check

variable {g : TypeGraph} {d : Decorations} {type : TypeId} {target : Target} {property : Property}
  {v : Json} {path : String}

/-- What is reported after the violations of the property's own directives, for the value that the
property has. -/
def below (g : TypeGraph) (d : Decorations) (target : Target) (property : Property)
    (path : String) :
    Option Json → List Violation
  | none => []
  | some v =>
    match nestedType? (d.on target) property, v with
    | some type, .array items =>
      if property.type.isCollection then
        items.zipIdx.flatMap fun (item, i) => violations g d type item (itemPath path i)
      else []
    | some type, .object members => violations g d type (.object members) path
    | _, _ => []

theorem violations_eq (g : TypeGraph) (d : Decorations) (type : TypeId) (v : Json) (path : String) :
    violations g d type v path = (allProperties g type).flatMap fun (target, property) =>
      valueViolations (d.on target) (memberPath path property.key) (v.member? property.key) ++
        below g d target property (memberPath path property.key) (v.member? property.key) := by
  rw [violations]
  congr 1
  funext ⟨target, property⟩
  dsimp only
  split
  · rename_i hnone
    rw [hnone, below, List.append_nil]
  · rename_i found hfound
    have hown : valueViolations (d.on target) (memberPath path property.key)
        (v.member? property.key) =
          valueViolations (d.on target) (memberPath path property.key) (some found) :=
      congrArg _ hfound
    have hbelow : below g d target property (memberPath path property.key)
        (v.member? property.key) =
          below g d target property (memberPath path property.key) (some found) :=
      congrArg _ hfound
    rw [hown, hbelow]
    unfold below
    congr 1
    cases hnested : nestedType? (d.on target) property with
    | none => rfl
    | some type =>
      cases found with
      | array items =>
        dsimp only
        split
        · conv_rhs => rw [← List.attach_map_subtype_val items.zipIdx, List.flatMap_map]
        · rfl
      | _ => rfl

def Requires (g : TypeGraph) (d : Decorations) (type : TypeId) : Prop :=
  ∃ entry ∈ allProperties g type, .notNull ∈ d.on entry.1

theorem member?_of_no_object (h : v.isObject = false) (name : String) : v.member? name = none := by
  cases v with
  | object => cases h
  | _ => rfl

theorem violations_of_no_object (h : v.isObject = false) :
    violations g d type v path = violations g d type .null path := by
  rw [violations_eq, violations_eq]
  simp only [member?_of_no_object h, member?_of_no_object (v := .null) rfl]

theorem valueViolations_none {directives : List Directive} :
    valueViolations directives path none = [] ↔ .notNull ∉ directives := by
  unfold valueViolations
  rw [List.map_eq_nil_iff, List.filterMap_eq_nil_iff]
  constructor
  · intro h hmem
    have hbroken := h _ hmem
    simp [broken?] at hbroken
  · intro h directive hdirective
    have hother : directive ≠ .notNull := fun heq => h (heq ▸ hdirective)
    simp [broken?, hother]

theorem violations_null : violations g d type .null path = [] ↔ ¬ Requires g d type := by
  rw [violations_eq, List.flatMap_eq_nil_iff]
  unfold Requires
  simp only [not_exists, not_and]
  refine forall₂_congr fun entry _ => ?_
  have hnone : below g d entry.1 entry.2 (memberPath path entry.2.key) none = [] := rfl
  rw [member?_of_no_object rfl, hnone, List.append_nil, valueViolations_none]

/-- The objects behind so many levels of arrays, each with its path. -/
def reached : Nat → String → Json → List (String × Json)
  | 0, path, .object members => [(path, .object members)]
  | n + 1, path, .array items =>
    items.zipIdx.flatMap fun (item, i) => reached n (itemPath path i) item
  | _, _, _ => []

def cascade (g : TypeGraph) (d : Decorations) (type : TypeId) (depth : Nat)
    (path : String) (v : Json) :
    List Violation :=
  (reached depth path v).flatMap fun (path, found) => violations g d type found path

theorem cascade_object (members : Json.Members) :
    cascade g d type 0 path (.object members) = violations g d type (.object members) path := by
  simp [cascade, reached]

theorem cascade_no_object (h : v.isObject = false) : cascade g d type 0 path v = [] := by
  cases v with
  | object => cases h
  | _ => rfl

theorem cascade_array (n : Nat) (items : List Json) :
    cascade g d type (n + 1) path (.array items) =
      items.zipIdx.flatMap fun (item, i) => cascade g d type n (itemPath path i) item := by
  unfold cascade
  rw [reached, List.flatMap_assoc]

theorem cascade_no_array (n : Nat) (h : v.array? = none) :
    cascade g d type (n + 1) path v = [] := by
  cases v with
  | array => cases h
  | _ => rfl

theorem cascade_sublist : (cascade g d type 0 path v).Sublist (violations g d type v path) := by
  cases hv : v.isObject with
  | false =>
    rw [cascade_no_object hv]
    exact List.nil_sublist _
  | true =>
    cases v with
    | object members => rw [cascade_object]
    | _ => cases hv

theorem cascade_eq_violations : cascade g d type 0 path v = violations g d type v path ↔
    (v.isObject = true ∨ ¬ Requires g d type) := by
  cases hv : v.isObject with
  | false =>
    rw [cascade_no_object hv, violations_of_no_object hv, eq_comm, violations_null]
    simp
  | true =>
    cases v with
    | object members => simp [cascade_object]
    | _ => cases hv

theorem flatMap_eq_iff {α β : Type} {f h : α → List β} : ∀ {xs : List α},
    (∀ x ∈ xs, (f x).Sublist (h x)) → (xs.flatMap f = xs.flatMap h ↔ ∀ x ∈ xs, f x = h x)
  | [], _ => by simp
  | x :: xs, hsub => by
    obtain ⟨hfirst, hrest⟩ := List.forall_mem_cons.mp hsub
    rw [List.forall_mem_cons, ← flatMap_eq_iff hrest, List.flatMap_cons, List.flatMap_cons]
    refine ⟨fun heq => ?_, fun ⟨hx, hxs⟩ => by rw [hx, hxs]⟩
    have hlater : (xs.flatMap f).Sublist (xs.flatMap h) := List.Sublist.flatMap_right xs hrest
    have hlength := congrArg List.length heq
    rw [List.length_append, List.length_append] at hlength
    have hone := hfirst.length_le
    have hmany := hlater.length_le
    exact ⟨hfirst.eq_of_length (by omega), hlater.eq_of_length (by omega)⟩

section Collection

variable (hnested : nestedType? (d.on target) property = some type)
  (hcollection : property.type.isCollection = true)

include hnested

theorem below_object (members : Json.Members) :
    below g d target property path (some (.object members)) =
      violations g d type (.object members) path := by
  unfold below
  rw [hnested]

theorem below_other (hobject : v.isObject = false) (harray : v.array? = none) :
    below g d target property path (some v) = [] := by
  unfold below
  rw [hnested]
  cases v with
  | object => cases hobject
  | array => cases harray
  | _ => rfl

include hcollection

theorem below_array (items : List Json) :
    below g d target property path (some (.array items)) =
      items.zipIdx.flatMap fun (item, i) => violations g d type item (itemPath path i) := by
  unfold below
  rw [hnested]
  exact if_pos hcollection

end Collection

theorem memberPath_of_ne (h : path ≠ "") (key : String) :
    memberPath path key = path ++ "." ++ key := by
  have hsome : path.isEmpty = false := by
    rw [← Bool.not_eq_true, String.isEmpty_iff]
    exact h
  rw [memberPath, hsome]
  rfl

theorem itemPath_ne (path : String) (i : Nat) : itemPath path i ≠ "" := by
  intro h
  have hlength := congrArg String.length h
  simp [itemPath] at hlength

theorem mem_below {violation : Violation}
    (h : violation ∈ below g d target property path (some v)) :
    ∃ type part more, part.size ≤ v.size ∧ violation ∈ violations g d type part (path ++ more) := by
  unfold below at h
  dsimp only at h
  split at h
  · rename_i inner items _
    split at h
    · obtain ⟨⟨item, i⟩, hitem, hin⟩ := List.mem_flatMap.mp h
      refine ⟨inner, item, "[" ++ toString i ++ "]",
        (Json.size_item_lt (List.fst_mem_of_mem_zipIdx hitem)).le, ?_⟩
      simpa only [itemPath, String.append_assoc] using hin
    · cases h
  · exact ⟨_, _, "", Nat.le_refl _, by rwa [String.append_empty]⟩
  · cases h

theorem path_of_violation {violation : Violation} (hpath : path ≠ "")
    (h : violation ∈ violations g d type v path) :
    ∃ rest, violation.path = path ++ "." ++ rest := by
  induction hn : v.size using Nat.strong_induction_on generalizing v path type with
  | _ n ih =>
    subst hn
    rw [violations_eq, List.mem_flatMap] at h
    obtain ⟨⟨target, property⟩, -, h⟩ := h
    dsimp only at h
    rw [memberPath_of_ne hpath] at h
    rcases List.mem_append.mp h with hown | hbelow
    · obtain ⟨message, -, rfl⟩ := List.mem_map.mp hown
      exact ⟨property.key, rfl⟩
    · cases hfound : v.member? property.key with
      | none =>
        rw [hfound] at hbelow
        cases hbelow
      | some found =>
        rw [hfound] at hbelow
        obtain ⟨inner, part, more, hsize, hin⟩ := mem_below hbelow
        have hlonger : path ++ "." ++ property.key ++ more ≠ "" := by
          intro hempty
          have hlength := congrArg String.length hempty
          simp at hlength
        obtain ⟨rest, hrest⟩ :=
          ih _ (hsize.trans_lt (Json.size_member_lt hfound)) hlonger hin rfl
        refine ⟨property.key ++ more ++ "." ++ rest, ?_⟩
        rw [hrest]
        simp only [String.append_assoc]

theorem path_of_cascade {violation : Violation} : ∀ {n : Nat} {v : Json} {path : String},
    violation ∈ cascade g d type (n + 1) path v →
      ∃ i rest, violation.path = itemPath path i ++ rest := by
  intro n
  induction n with
  | zero =>
    intro v path h
    cases v with
    | array items =>
      rw [cascade_array] at h
      obtain ⟨⟨item, i⟩, -, hin⟩ := List.mem_flatMap.mp h
      obtain ⟨rest, hrest⟩ := path_of_violation (itemPath_ne path i) (cascade_sublist.subset hin)
      exact ⟨i, "." ++ rest, by rw [hrest, String.append_assoc]⟩
    | _ => rw [cascade_no_array 0 rfl] at h; cases h
  | succ n ih =>
    intro v path h
    cases v with
    | array items =>
      rw [cascade_array] at h
      obtain ⟨⟨item, i⟩, -, hin⟩ := List.mem_flatMap.mp h
      obtain ⟨j, rest, hrest⟩ := ih hin
      refine ⟨i, "[" ++ toString j ++ "]" ++ rest, ?_⟩
      rw [hrest, itemPath]
      simp only [String.append_assoc]
    | _ => rw [cascade_no_array _ rfl] at h; cases h

theorem itemPath_apart {i j : Nat} {first second : String} :
    itemPath path i ++ "." ++ first ≠ itemPath path j ++ "[" ++ second := by
  intro h
  have hlist := congrArg String.toList h
  simp only [itemPath, String.toList_append, List.append_assoc, List.append_cancel_left_eq] at hlist
  -- An index is all digits, and what closes it is none.
  have hrest : ∀ (n : Nat) (more : List Char),
      ((toString n).toList ++ ("]".toList ++ more)).dropWhile Char.isDigit = ']' :: more :=
    fun n more => (Binary64.takeWhile_digits (fun _ => Binary64.isDigit_of_mem_toString) rfl).2
  have hmore := congrArg (List.dropWhile Char.isDigit) hlist
  rw [hrest, hrest] at hmore
  exact absurd (List.cons.inj (List.cons.inj hmore).2).1 (by decide)

theorem below_apart (hnested : nestedType? (d.on target) property = some type)
    (hcollection : property.type.isCollection = true) {n : Nat} {violation : Violation}
    (hbelow : violation ∈ below g d target property path (some v))
    (hcascade : violation ∈ cascade g d type (n + 2) path v) : False := by
  cases v with
  | array items =>
    rw [below_array hnested hcollection] at hbelow
    rw [cascade_array] at hcascade
    obtain ⟨⟨item, i⟩, -, hin⟩ := List.mem_flatMap.mp hbelow
    obtain ⟨⟨other, j⟩, -, hdeep⟩ := List.mem_flatMap.mp hcascade
    obtain ⟨first, hfirst⟩ := path_of_violation (itemPath_ne path i) hin
    obtain ⟨k, second, hsecond⟩ := path_of_cascade hdeep
    have hindex : itemPath (itemPath path j) k ++ second =
        itemPath path j ++ "[" ++ (toString k ++ "]" ++ second) := by
      rw [itemPath]
      simp only [String.append_assoc]
    exact itemPath_apart (hfirst.symm.trans (hsecond.trans hindex))
  | _ => rw [cascade_no_array _ rfl] at hcascade; cases hcascade

/-- The value of a property in a list is checked as it should be exactly if its items are
objects, as far as anything is required of them, and if it is no object itself in which something
is found. -/
theorem below_eq_cascade (hnested : nestedType? (d.on target) property = some type)
    (hcollection : property.type.isCollection = true) :
    below g d target property path (some v) = cascade g d type 1 path v ↔
      (∀ items, v = .array items → ∀ item ∈ items, item.isObject = true ∨ ¬ Requires g d type) ∧
      ∀ members, v = .object members → violations g d type v path = [] := by
  cases v with
  | array items =>
    rw [below_array hnested hcollection, cascade_array, eq_comm,
      flatMap_eq_iff fun _ _ => cascade_sublist]
    simp only [cascade_eq_violations]
    constructor
    · refine fun h => ⟨?_, fun _ hobject => by cases hobject⟩
      rintro _ ⟨⟩ item hitem
      obtain ⟨i, hi⟩ := List.mem_iff_getElem?.mp hitem
      exact h (item, i) (List.mem_zipIdx_iff_getElem?.mpr hi)
    · exact fun h entry hentry => h.1 items rfl _ (List.fst_mem_of_mem_zipIdx hentry)
  | object members =>
    rw [below_object hnested, cascade_no_array _ rfl]
    exact ⟨fun h => ⟨fun _ harray => (by cases harray), fun _ _ => h⟩, fun h => h.2 members rfl⟩
  | _ =>
    rw [below_other hnested rfl rfl, cascade_no_array _ rfl]
    exact ⟨fun _ => ⟨fun _ h => (by cases h), fun _ h => (by cases h)⟩, fun _ => rfl⟩

/-- A property whose values are checked in turn: lists and sets in one another stand around a
type. -/
structure Cascades (d : Decorations) (target : Target) (property : Property)
    (type : TypeId) (n : Nat) :
    Prop where
  valid : .valid ∈ d.on target
  around : property.type.target? = some type
  depth : property.type.depth = n + 1

namespace Cascades

variable {n : Nat}

theorem nested (c : Cascades d target property type n) :
    nestedType? (d.on target) property = some type := by
  have hvalid : (d.on target).contains .valid = true := List.contains_iff_mem.mpr c.valid
  rw [nestedType?, if_pos hvalid, c.around]

theorem collection (c : Cascades d target property type n) : property.type.isCollection = true := by
  have hdepth := c.depth
  cases hshape : property.type with
  | list => rfl
  | set => rfl
  | _ => rw [hshape] at hdepth; cases hdepth

end Cascades

private def listed : TypeGraph where
  types := #[
    { name := "A", properties := [{ key := "ps", name := "ps", type := .list (.generated ⟨1⟩) }] },
    { name := "P", properties := [{ key := "x", name := "x", type := .any, required := true }] }]

private def listedMarks : Decorations :=
  [(.property ⟨0⟩ 0, .valid), (.property ⟨1⟩ 0, .notNull)]

private theorem listed_cascades :
    Cascades listedMarks (.property ⟨0⟩ 0)
    { key := "ps", name := "ps", type := .list (.generated ⟨1⟩) }
      ⟨1⟩ 0 where
  valid := by decide
  around := rfl
  depth := rfl

private theorem listed_requires : Requires listed listedMarks ⟨1⟩ :=
  ⟨(.property ⟨1⟩ 0, { key := "x", name := "x", type := .any, required := true }),
    List.mem_singleton.mpr rfl, by decide⟩

private theorem listed_violations (v : Json) (path : String) :
    violations listed listedMarks ⟨1⟩ v path =
      valueViolations [.notNull] (memberPath path "x") (v.member? "x") := by
  have hmembers : allProperties listed ⟨1⟩ =
      [(.property ⟨1⟩ 0, { key := "x", name := "x", type := .any, required := true })] := rfl
  rw [violations_eq, hmembers, List.flatMap_singleton]
  cases hmember : v.member? "x" with
  | none => simp only [hmember]; rfl
  | some found => simp only [hmember]; exact List.append_nil _

end Check

end SchemaBeans
