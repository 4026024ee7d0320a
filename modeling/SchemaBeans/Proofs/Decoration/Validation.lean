import SchemaBeans.Proofs.Decoration.Families
import SchemaBeans.Proofs.Json.Decimals
import SchemaBeans.Proofs.Keywords.Bounds
import SchemaBeans.Proofs.TypeGraph.Access

/-! # Bounds as directives

The bounds of a property are directives of the property where validation takes part. An object with
one integer is reported at its key exactly if the integer is beyond a bound of a property under the
key, of the type itself or of a superclass. -/
namespace SchemaBeans

open Check (Side)

def Bound.Excludes (b : Bound) (side : Side) (x : ℚ) : Prop :=
  match side, b.exclusive with
  | .lower, false => x < b.value.rational
  | .lower, true => x ≤ b.value.rational
  | .upper, false => b.value.rational < x
  | .upper, true => b.value.rational ≤ x

/-- The directive of a bound. -/
def Bound.directive (b : Bound) : Side → Directive
  | .lower => .decimalMin b.value.text (!b.exclusive)
  | .upper => .decimalMax b.value.text (!b.exclusive)

/-- The directive for a bound on one side. -/
def Check.Side.directive : Side → String → Bool → Directive
  | .lower => .decimalMin
  | .upper => .decimalMax

variable {settings : Settings} {g : TypeGraph} {type : TypeId} {property : Property} {i : Nat}
  {directive : Directive} {b : Bound} {side : Side} {x : Int}

namespace Decoration

theorem validation_on (hon : settings.includeJsr303Annotations = true)
    (hkind : directive.kind = .validation) :
    directive ∈ (decorate settings g).on (.property type i) ↔
      ∃ property, (g.get type).properties[i]? = some property ∧
        directive ∈ validation g property := by
  have hamong : directive ∈ (decorate settings g).on (.property type i) ↔ directive ∈
      DirectiveKind.validation.among ((decorate settings g).on (.property type i)) := by
    simp [DirectiveKind.among, hkind]
  have henabled : DirectiveKind.validation.family.enabled settings = true := hon
  rw [hamong, DirectiveKind.among_decorate, Decorations.mem_on, DirectiveKind.attached,
    if_pos henabled]
  constructor
  · intro hmem
    obtain ⟨id, -, hid⟩ := List.mem_flatMap.mp hmem
    obtain ⟨⟨property, index⟩, hproperty, hdirective⟩ := List.mem_flatMap.mp hid
    obtain ⟨found, hfound, heq⟩ := List.mem_map.mp hdirective
    cases heq
    exact ⟨property, List.mem_zipIdx_iff_getElem?.mp hproperty, hfound⟩
  · rintro ⟨property, hproperty, hdirective⟩
    have htype : g.Has type := by
      by_contra hnot
      rw [TypeGraph.get_of_not_has hnot] at hproperty
      cases hproperty
    refine List.mem_flatMap.mpr ⟨type, TypeGraph.mem_ids.mpr htype, ?_⟩
    refine List.mem_flatMap.mpr ⟨(property, i), List.mem_zipIdx_iff_getElem?.mpr hproperty, ?_⟩
    exact List.mem_map.mpr ⟨directive, hdirective, rfl⟩

theorem mem_boundDirective {make : String → Bool → Directive} {bound : Option Bound} :
    directive ∈ boundDirective make bound ↔
      ∃ b, bound = some b ∧ directive = make b.value.text (!b.exclusive) := by
  cases bound <;> simp [boundDirective]

theorem bound_mem_validation (h : property.constraints.bound side = some b) :
    b.directive side ∈ validation g property := by
  have hmake : b.directive side ∈ boundDirective .decimalMin property.constraints.minimum ∨
      b.directive side ∈ boundDirective .decimalMax property.constraints.maximum := by
    cases side with
    | lower => exact .inl (mem_boundDirective.mpr ⟨b, h, rfl⟩)
    | upper => exact .inr (mem_boundDirective.mpr ⟨b, h, rfl⟩)
  unfold validation
  simp only [List.mem_append]
  tauto

end Decoration

namespace Check

open Binary64 Decoration

/-- The number is on the wrong side of the bound. -/
def Beyond {α : Type} [LT α] [LE α] (side : Side) (inclusive : Bool) (v b : α) : Prop :=
  match side, inclusive with
  | .lower, true => v < b
  | .lower, false => v ≤ b
  | .upper, true => b < v
  | .upper, false => b ≤ v

variable {inclusive : Bool} {actual limit : Binary64} {text : String} {value : Json}

theorem breaks_iff (ha : actual.isFinite = true) (hl : limit.isFinite = true) :
    breaks side inclusive actual limit = true ↔ Beyond side inclusive actual.value limit.value := by
  cases side with
  | lower =>
    cases inclusive with
    | true => exact lt_iff ha hl
    | false => exact le_iff ha hl
  | upper =>
    cases inclusive with
    | true => exact lt_iff hl ha
    | false => exact le_iff hl ha

theorem excludes_iff {y : ℚ} :
    b.Excludes side y ↔ Beyond side (!b.exclusive) y b.value.rational := by
  unfold Bound.Excludes
  cases side <;> cases b.exclusive <;> exact Iff.rfl

theorem present?_directive :
    present? value (side.directive text inclusive) = bound? side inclusive text value := by
  cases side <;> rfl

theorem bound?_integer (hlimit : ofText? text.toList = some limit) :
    bound? side inclusive text (.number (.integer x)) =
      if breaks side inclusive (ofInt x) limit then
        some ("must be " ++ relation side inclusive ++ " " ++ text)
      else none := by
  have hnumeric : numeric? (.number (.integer x)) = some (ofInt x) := rfl
  rw [bound?, hnumeric, hlimit]
  rfl

theorem present?_bound (hb : b.value.Fits) (hx : x.natAbs ≤ significandEnd) :
    (∃ message, present? (.number (.integer x)) (b.directive side) = some message) ↔
      b.Excludes side x := by
  obtain ⟨hfinite, hexact⟩ := ofInt_exact hx
  obtain ⟨hlimit, hvalue⟩ := JsonNumber.toBinary64_exact hb
  have hdirective : b.directive side = side.directive b.value.text (!b.exclusive) := by
    cases side <;> rfl
  rw [hdirective, present?_directive, bound?_integer (JsonNumber.ofText?_text hb.wellFormed),
    excludes_iff, ← hexact, ← hvalue, ← breaks_iff hfinite hlimit]
  split <;> simp_all

theorem kind_of_present {v : Json} {message : String} (h : present? v directive = some message) :
    directive.kind = .validation := by
  cases directive <;> first | rfl | simp [present?] at h

theorem bound_of_present {n : JsonNumber} {message : String}
    (hd : directive ∈ validation g property)
    (h : present? (.number n) directive = some message) :
    ∃ side b, property.constraints.bound side = some b ∧ directive = b.directive side := by
  simp only [validation, List.mem_append, mem_boundDirective] at hd
  cases directive with
  | decimalMin text inclusive =>
    obtain ⟨b, hb, hsame⟩ : ∃ b, property.constraints.minimum = some b ∧
        Directive.decimalMin text inclusive = .decimalMin b.value.text (!b.exclusive) := by
      simpa using hd
    exact ⟨.lower, b, hb, hsame⟩
  | decimalMax text inclusive =>
    obtain ⟨b, hb, hsame⟩ : ∃ b, property.constraints.maximum = some b ∧
        Directive.decimalMax text inclusive = .decimalMax b.value.text (!b.exclusive) := by
      simpa using hd
    exact ⟨.upper, b, hb, hsame⟩
  | size min max => simp [present?, size?, length?] at h
  | pattern text => simp [present?, pattern?] at h
  | _ => simp [present?] at h

def single (key : String) (x : Int) : Json := .object [(key, .number (.integer x))]

theorem member?_single (key other : String) (x : Int) : (single key x).member? other =
    if other = key then some (.number (.integer x)) else none := by
  by_cases h : other = key
  · simp [single, Json.member?, h]
  · simp [single, Json.member?, h]

theorem mem_violations_single {d : Decorations} {key : String} {violation : Violation} :
    (violation ∈ violations g d type (single key x) "" ∧ violation.path = key) ↔
      ∃ target property, (target, property) ∈ allProperties g type ∧ property.key = key ∧
        ∃ directive ∈ d.on target, ∃ message,
          present? (.number (.integer x)) directive = some message ∧ violation =
          ⟨key, message⟩ := by
  have hpath : ∀ other : String, memberPath "" other = other := fun _ => rfl
  rw [violations]
  simp only [List.mem_flatMap, hpath]
  constructor
  · rintro ⟨⟨⟨target, property⟩, hp, hmem⟩, hkey⟩
    dsimp only at hmem
    split at hmem
    · -- A property under another key is reported at that key.
      rename_i hnone
      obtain ⟨message, -, rfl⟩ := List.mem_map.mp hmem
      rw [member?_single, if_pos hkey] at hnone
      cases hnone
    · rename_i found hfound
      rw [member?_single] at hfound
      split at hfound
      · rename_i hsame
        cases hfound
        rcases List.mem_append.mp hmem with hmem | hnested
        · obtain ⟨message, hbroken, rfl⟩ := List.mem_map.mp hmem
          obtain ⟨directive, hd, hmessage⟩ := List.mem_filterMap.mp hbroken
          exact ⟨target, property, hp, hsame, directive, hd, message, hmessage, hsame ▸ rfl⟩
        · -- A number has no members to be checked in turn.
          split at hnested
          · contradiction
          · contradiction
          · cases hnested
      · cases hfound
  · rintro ⟨target, property, hp, rfl, directive, hd, message, hmessage, rfl⟩
    refine ⟨⟨(target, property), hp, ?_⟩, rfl⟩
    have hown : (⟨property.key, message⟩ : Violation) ∈
        valueViolations (d.on target) property.key (some (.number (.integer x))) :=
      List.mem_map.mpr ⟨message, List.mem_filterMap.mpr ⟨directive, hd, hmessage⟩, rfl⟩
    dsimp only
    split
    · rename_i hnone
      rw [member?_single, if_pos rfl] at hnone
      cases hnone
    · rename_i found hfound
      rw [member?_single, if_pos rfl] at hfound
      cases hfound
      exact List.mem_append_left _ hown

theorem mem_allProperties {target : Target} : (target, property) ∈ allProperties g type ↔
    ∃ owner ∈ g.lineage type, ∃ i, target = .property owner i ∧
      (g.get owner).properties[i]? = some property := by
  unfold allProperties
  simp only [List.mem_flatMap, List.mem_reverse, List.mem_map, Prod.mk.injEq, Prod.exists,
    List.mem_zipIdx_iff_getElem?]
  constructor
  · rintro ⟨owner, howner, found, i, hi, rfl, rfl⟩
    exact ⟨owner, howner, i, rfl, hi⟩
  · rintro ⟨owner, howner, i, rfl, hi⟩
    exact ⟨owner, howner, property, i, hi, rfl, rfl⟩

variable {key : String}

/-- Where validation takes part, an integer is reported at its key if it is beyond a bound of a
property under the key, of the type or of a superclass. -/
theorem reported_of_excludes (hon : settings.includeJsr303Annotations = true) {owner : TypeId}
    (howner : owner ∈ g.lineage type) (hp : property ∈ (g.get owner).properties)
    (hkey : property.key = key) (hb : property.constraints.bound side = some b)
    (hfits : b.value.Fits) (hx : x.natAbs ≤ significandEnd) (hbeyond : b.Excludes side x) :
    ∃ violation ∈ violations g (decorate settings g) type (single key x) "",
      violation.path = key := by
  obtain ⟨i, hi⟩ := List.mem_iff_getElem?.mp hp
  obtain ⟨message, hmessage⟩ := (present?_bound hfits hx).mpr hbeyond
  have hkind : (b.directive side).kind = .validation := by cases side <;> rfl
  have hd := (validation_on hon hkind).mpr ⟨property, hi, bound_mem_validation hb⟩
  have hmem := mem_violations_single.mpr ⟨_, property,
    mem_allProperties.mpr ⟨owner, howner, i, rfl, hi⟩, hkey, _, hd, message, hmessage, rfl⟩
  exact ⟨_, hmem⟩

theorem excludes_of_reported (hon : settings.includeJsr303Annotations = true)
    (hfits : ∀ owner ∈ g.lineage type, ∀ property ∈ (g.get owner).properties, property.key = key →
      ∀ side b, property.constraints.bound side = some b → b.value.Fits)
    (hx : x.natAbs ≤ significandEnd)
    (h : ∃ violation ∈ violations g (decorate settings g) type (single key x) "",
      violation.path = key) :
    ∃ owner ∈ g.lineage type, ∃ property ∈ (g.get owner).properties, property.key = key ∧
      ∃ side b, property.constraints.bound side = some b ∧ b.Excludes side x := by
  obtain ⟨violation, hmem, hpath⟩ := h
  obtain ⟨target, property, hp, hkey, directive, hd, message, hmessage, -⟩ :=
    mem_violations_single.mp ⟨hmem, hpath⟩
  obtain ⟨owner, howner, i, rfl, hi⟩ := mem_allProperties.mp hp
  obtain ⟨found, hfound, hvalid⟩ := (validation_on hon (kind_of_present hmessage)).mp hd
  obtain rfl := Option.some.inj (hi.symm.trans hfound)
  obtain ⟨side, b, hb, rfl⟩ := bound_of_present hvalid hmessage
  have hproperty := List.mem_of_getElem? hi
  have hfit := hfits owner howner property hproperty hkey side b hb
  exact ⟨owner, howner, property, hproperty, hkey, side, b, hb,
    (present?_bound hfit hx).mp ⟨message, hmessage⟩⟩

end Check

end SchemaBeans
