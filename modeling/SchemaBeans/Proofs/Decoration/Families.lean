import Mathlib.Data.List.Basic
import SchemaBeans.Decoration

/-! # Families of directives

Every directive is of one kind, and each family attaches directives of its own kind only. So the
directives of a kind can be told from a target without asking which families took part, and only the
switches of their own family have a say in them. -/
namespace SchemaBeans

/-- What a directive is for. There is one family for each kind, and they take turns in this
order. -/
inductive DirectiveKind where
  | binding
  | typeInfo
  | validation
  | documentation
  deriving DecidableEq, Repr

def Directive.kind : Directive → DirectiveKind
  | .wireName .. | .expose | .propertyOrder _ | .includeNonNull | .anyProperties | .enumValue =>
    .binding
  | .typeInfo .. | .subTypes _ | .typeName _ => .typeInfo
  | .decimalMin .. | .decimalMax .. | .size .. | .pattern _ | .notNull | .valid => .validation
  | .doc _ | .requiredDoc => .documentation

/-- The directives of one kind, in their order. -/
def DirectiveKind.among (kind : DirectiveKind) (directives : List Directive) : List Directive :=
  directives.filter (·.kind = kind)

namespace Decorations

variable {α : Type} {target : Target}

theorem on_flatMap (xs : List α) (f : α → Decorations) :
    on (xs.flatMap f) target = xs.flatMap fun x => on (f x) target := by
  simp only [on, List.filterMap_flatMap]

theorem mem_on {d : Decorations} {directive : Directive} :
    directive ∈ d.on target ↔ (target, directive) ∈ d := by
  simp only [on, List.mem_filterMap, Option.ite_none_right_eq_some, Option.some.injEq]
  constructor
  · rintro ⟨⟨place, found⟩, hmem, rfl, rfl⟩
    exact hmem
  · exact fun h => ⟨_, h, rfl, rfl⟩

end Decorations

namespace DirectiveKind

open Decoration

variable {kind : DirectiveKind} {s t : Settings} {g : TypeGraph} {id : TypeId} {target : Target}

def all : List DirectiveKind := [binding, typeInfo, validation, documentation]

/-- The settings agree on the switches of the family. -/
def Agrees (kind : DirectiveKind) (s t : Settings) : Prop :=
  match kind with
  | binding => s.annotationStyle = t.annotationStyle
  | typeInfo => s.annotationStyle = t.annotationStyle ∧ s.includeTypeInfo = t.includeTypeInfo
  | validation => s.includeJsr303Annotations = t.includeJsr303Annotations
  | documentation => s.includeDocumentation = t.includeDocumentation

def family : DirectiveKind → Decoration.Family
  | binding => ⟨fun s => s.annotationStyle != .none, bindingFamily⟩
  | typeInfo => ⟨fun s => s.includeTypeInfo && s.annotationStyle.supportsTypeInfo, typeInfoFamily⟩
  | validation => ⟨fun s => s.includeJsr303Annotations, validationFamily⟩
  | documentation => ⟨fun s => s.includeDocumentation, documentationFamily⟩

theorem families_eq : families = all.map family := rfl

theorem kind_bindingFamily : ∀ d ∈ bindingFamily s g id, d.2.kind = binding := by
  intro d hd
  simp only [bindingFamily, List.mem_append, List.mem_flatMap, List.mem_ite_nil_left,
    List.mem_ite_nil_right, List.mem_singleton] at hd
  rcases hd with hd | ⟨property, -, ⟨-, rfl⟩ | ⟨-, rfl⟩⟩
  · split at hd
    · simp only [List.mem_append, List.mem_ite_nil_left, List.mem_ite_nil_right,
        List.mem_singleton] at hd
      rcases hd with (rfl | ⟨-, rfl⟩) | ⟨-, rfl⟩ <;> rfl
    · rw [List.mem_singleton.mp hd]
      rfl
    · obtain ⟨constant, -, hconstant⟩ := List.mem_filterMap.mp hd
      split at hconstant
      · cases hconstant
      · cases hconstant
        rfl
    · cases hd
  · rfl
  · rfl

theorem kind_typeInfoFamily : ∀ d ∈ typeInfoFamily s g id, d.2.kind = typeInfo := by
  intro d hd
  simp only [typeInfoFamily, List.mem_append, List.mem_map] at hd
  rcases hd with hd | ⟨tag, -, rfl⟩
  · split at hd
    · simp only [List.mem_cons, List.not_mem_nil, or_false] at hd
      rcases hd with rfl | rfl <;> rfl
    · cases hd
  · rfl

theorem kind_validation (property : Property) :
    ∀ d ∈ Decoration.validation g property, d.kind = validation := by
  intro d hd
  simp only [Decoration.validation, boundDirective, List.mem_append, List.mem_map,
    List.mem_ite_nil_right, List.mem_singleton] at hd
  rcases hd with ((((⟨_, -, rfl⟩ | ⟨_, -, rfl⟩) | ⟨-, rfl⟩) | ⟨_, -, rfl⟩) | ⟨-, rfl⟩) | ⟨-, rfl⟩
  all_goals rfl

theorem kind_documentation (title description : Option String) :
    ∀ d ∈ Decoration.documentation title description, d.kind = documentation := by
  intro d hd
  obtain ⟨text, -, rfl⟩ := List.mem_map.mp hd
  rfl

theorem kind_documentationFamily : ∀ d ∈ documentationFamily s g id, d.2.kind = documentation := by
  intro d hd
  simp only [documentationFamily, List.mem_append, List.mem_map, List.mem_flatMap,
    List.mem_ite_nil_right, List.mem_singleton] at hd
  rcases hd with ⟨directive, hdirective, rfl⟩ | ⟨property, -, directive, hdirective, rfl⟩
  · exact kind_documentation _ _ directive hdirective
  · rcases hdirective with hdirective | ⟨-, rfl⟩
    · exact kind_documentation _ _ directive hdirective
    · rfl

theorem kind_family : ∀ d ∈ kind.family.decorate s g id, d.2.kind = kind := by
  cases kind with
  | binding => exact kind_bindingFamily
  | typeInfo => exact kind_typeInfoFamily (s := s)
  | validation =>
    intro d hd
    simp only [family, validationFamily, List.mem_flatMap, List.mem_map] at hd
    obtain ⟨property, -, directive, hdirective, rfl⟩ := hd
    exact kind_validation _ directive hdirective
  | documentation => exact kind_documentationFamily (s := s)

/-- The switches of a family settle whether it takes part and what it attaches. -/
theorem Agrees.family (h : kind.Agrees s t) :
    kind.family.enabled s = kind.family.enabled t ∧
      kind.family.decorate s g = kind.family.decorate t g := by
  cases kind with
  | binding =>
    have hstyle : s.annotationStyle = t.annotationStyle := h
    constructor
    · simp only [DirectiveKind.family, hstyle]
    · funext id
      simp only [DirectiveKind.family, bindingFamily, hstyle]
  | typeInfo =>
    obtain ⟨hstyle, hinclude⟩ := h
    exact ⟨by simp only [DirectiveKind.family, hstyle, hinclude], rfl⟩
  | validation => exact ⟨h, rfl⟩
  | documentation => exact ⟨h, rfl⟩

def attached (kind : DirectiveKind) (s : Settings) (g : TypeGraph) : Decorations :=
  if kind.family.enabled s then g.ids.flatMap (kind.family.decorate s g) else []

theorem decorate_eq (s : Settings) (g : TypeGraph) :
    decorate s g = all.flatMap fun kind => kind.attached s g := by
  have hfamilies : ∀ kinds : List DirectiveKind,
      ((kinds.map family).filter (·.enabled s)).flatMap
        (fun family => g.ids.flatMap (family.decorate s g)) =
      kinds.flatMap fun kind => kind.attached s g := by
    intro kinds
    induction kinds with
    | nil => rfl
    | cons kind rest ih =>
      rw [List.map_cons, List.filter_cons, List.flatMap_cons, attached]
      split
      · rw [List.flatMap_cons, ih]
      · rw [ih, List.nil_append]
  rw [decorate, families_eq, hfamilies]

theorem kind_attached {directive : Directive} (h : directive ∈ (kind.attached s g).on target) :
    directive.kind = kind := by
  have hmem := Decorations.mem_on.mp h
  unfold attached at hmem
  split at hmem
  · obtain ⟨id, -, hid⟩ := List.mem_flatMap.mp hmem
    exact kind_family _ hid
  · cases hmem

theorem among_attached (kind other : DirectiveKind) :
    kind.among ((other.attached s g).on target) =
      if other = kind then (kind.attached s g).on target else [] := by
  unfold among
  split
  · rename_i hsame
    subst hsame
    rw [List.filter_eq_self]
    exact fun directive hdirective => decide_eq_true (kind_attached hdirective)
  · rename_i hother
    rw [List.filter_eq_nil_iff]
    intro directive hdirective
    rw [kind_attached hdirective]
    simpa using hother

theorem among_decorate (kind : DirectiveKind) (s : Settings) (g : TypeGraph) (target : Target) :
    kind.among ((decorate s g).on target) = (kind.attached s g).on target := by
  have hall : ∀ kinds : List DirectiveKind,
      kind.among (kinds.flatMap fun other => (other.attached s g).on target) =
        kinds.flatMap fun other => if other = kind then (kind.attached s g).on target else [] := by
    intro kinds
    induction kinds with
    | nil => rfl
    | cons other rest ih =>
      rw [List.flatMap_cons, List.flatMap_cons, ← ih, ← among_attached kind other]
      exact List.filter_append ..
  rw [decorate_eq, Decorations.on_flatMap, hall]
  cases kind <;> simp [all]

/-- Settings that agree on the switches of one family put the same directives of its kind on every
target, in the same order, and the directives on a target are those of the families one after the
other. -/
theorem families_independent (s t : Settings) (g : TypeGraph) (target : Target) :
    (∀ kind : DirectiveKind, kind.Agrees s t →
      kind.among ((decorate s g).on target) = kind.among ((decorate t g).on target)) ∧
    (decorate s g).on target = all.flatMap fun kind => kind.among ((decorate s g).on target) := by
  constructor
  · intro kind hagrees
    obtain ⟨henabled, hdecorate⟩ := hagrees.family (g := g)
    rw [among_decorate, among_decorate, attached, attached, henabled, hdecorate]
  · simp only [among_decorate]
    rw [decorate_eq, Decorations.on_flatMap]

-- A required name of bounded length, with the annotations of two libraries.
private def namedGraph : TypeGraph :=
  { types := #[{ name := "User", properties := [
      { key := "first-name", name := "first_name", type := .string, required := true,
        description := some "Given name", constraints := { maxSize := some 20 } }] }] }

private def jacksonChecked : Settings := { includeJsr303Annotations := true }

private def gsonChecked : Settings :=
  { includeJsr303Annotations := true, annotationStyle := .gson, includeDocumentation := false }

theorem families_independent_name : validation.Agrees jacksonChecked gsonChecked ∧
    (decorate jacksonChecked namedGraph).on (.property ⟨0⟩ 0) =
      [.wireName .jackson2 "first-name", .size none (some 20), .notNull, .doc "Given name",
        .requiredDoc] ∧
    validation.among ((decorate gsonChecked namedGraph).on (.property ⟨0⟩ 0)) =
      [.size none (some 20), .notNull] := by
  have hall : (decorate jacksonChecked namedGraph).on (.property ⟨0⟩ 0) =
      [.wireName .jackson2 "first-name", .size none (some 20), .notNull, .doc "Given name",
        .requiredDoc] := by decide +kernel
  have hsame := (families_independent jacksonChecked gsonChecked namedGraph
    (.property ⟨0⟩ 0)).1 validation rfl
  rw [hall] at hsame
  exact ⟨rfl, hall, hsame.symm⟩

end DirectiveKind

end SchemaBeans
