import SchemaBeans.Proofs.Reference.Pointers

/-! # Positions

A pointer spells a position: the members and items that a part of a value stands in. A position
has many spellings, because an index may be written with a plus sign or idle zeros and a tilde
without an escape. One of them is plain. It is what going down makes of names and numerals, and
whatever another spelling leads to, it leads there too. -/
namespace SchemaBeans

namespace Json

/-- A step into a value. -/
inductive Step where
  | member (name : String)
  | item (index : Nat)
  deriving DecidableEq, Repr

/-- How a step is spelled in a pointer, before escapes. -/
def Step.segment : Step → String
  | member name => name
  | item index => toString index

/-- The segments lead from the first value to the second one, by these steps. -/
inductive Leads : Json → List String → List Step → Json → Prop
  | here {v : Json} : Leads v [] [] v
  | member {members : Members} {name : String} {part w : Json} {segments : List String}
      {steps : List Step} (h : members.lookup name = some part)
      (hrest : Leads part segments steps w) :
      Leads (.object members) (name :: segments) (.member name :: steps) w
  | item {items : List Json} {segment : String} {index : Nat} {part w : Json}
      {segments : List String} {steps : List Step} (hindex : Pointer.index? segment = some index)
      (h : items[index]? = some part) (hrest : Leads part segments steps w) :
      Leads (.array items) (segment :: segments) (.item index :: steps) w

def Sits (v : Json) (pointer : String) (steps : List Step) (w : Json) : Prop :=
  ∃ segments, Pointer.segments? pointer = some segments ∧ v.Leads segments steps w

end Json

def Pointer.plain (steps : List Json.Step) : String :=
  (steps.map Json.Step.segment).foldl Pointer.push ""

namespace Pointer

theorem segments?_plain (steps : List Json.Step) :
    segments? (plain steps) = some (steps.map Json.Step.segment) := by
  have hroot : segments? "" = some [] := rfl
  simpa [plain] using segments?_pushAll (steps.map Json.Step.segment) hroot

theorem index?_toString {index : Nat} (h : index ≤ JsonNumber.wordMax) :
    index? (toString index) = some index := by
  have hdigit : ∀ c ∈ Nat.toDigits 10 index, c.isDigit :=
    fun c hc => Nat.isDigit_of_mem_toDigits (by decide) (by decide) hc
  have hvalue : Binary64.digitsValue (Nat.toDigits 10 index) = index := by
    have hread := @Nat.ofDigitChars_toDigits 10 index (by decide) (by decide)
    simpa [Binary64.digitsValue, Nat.ofDigitChars, Nat.mul_comm] using hread
  have hnonempty : Nat.toDigits 10 index ≠ [] := Nat.toDigits_ne_nil
  have hlist : (toString index).toList = Nat.toDigits 10 index := by
    rw [Nat.toString_eq_repr, Nat.repr_eq_ofList_toDigits, String.toList_ofList]
  unfold index?
  rw [hlist]
  dsimp only
  split
  · rename_i rest hplus
    have hsign := hdigit '+' (by rw [hplus]; simp)
    exact absurd hsign (by decide)
  · simpa [hnonempty, hvalue, h] using hdigit

theorem index?_le {segment : String} {index : Nat} (h : index? segment = some index) :
    index ≤ JsonNumber.wordMax := by
  unfold index? at h
  dsimp only at h
  split at h <;> split at h
  · cases h
  · simpa using (Option.filter_eq_some_iff.mp h).2
  · cases h
  · simpa using (Option.filter_eq_some_iff.mp h).2

end Pointer

namespace Json

variable {v w x part : Json} {pointer other : String} {segments more : List String}
  {steps rest : List Step}

theorem exists_leads : ∀ {segments : List String} {v : Json}, v.descend? segments = some w →
    ∃ steps, v.Leads segments steps w
  | [], v, h => by
    cases h
    exact ⟨[], .here⟩
  | segment :: segments, v, h => by
    unfold descend? at h
    rw [List.foldlM_cons] at h
    obtain ⟨part, hpart, hrest⟩ := Option.bind_eq_some_iff.mp h
    obtain ⟨steps, hsteps⟩ := exists_leads hrest
    cases v with
    | object members => exact ⟨_, .member hpart hsteps⟩
    | array items =>
      obtain ⟨index, hindex, hitem⟩ := Option.bind_eq_some_iff.mp hpart
      exact ⟨_, .item hindex hitem hsteps⟩
    | _ => cases hpart

theorem Leads.descend? (h : v.Leads segments steps w) : v.descend? segments = some w := by
  unfold Json.descend?
  induction h with
  | here => rfl
  | member hmember _ ih =>
    rw [List.foldlM_cons]
    exact (Option.bind_eq_some_iff.mpr ⟨_, hmember, ih⟩)
  | @item _ segment index _ _ _ _ hindex hitem _ ih =>
    rw [List.foldlM_cons]
    exact Option.bind_eq_some_iff.mpr ⟨_, Option.bind_eq_some_iff.mpr ⟨_, hindex, hitem⟩, ih⟩

theorem lookup?_iff : v.lookup? pointer = some w ↔ ∃ steps, v.Sits pointer steps w := by
  constructor
  · intro h
    obtain ⟨segments, hsegments, hw⟩ := Option.bind_eq_some_iff.mp h
    obtain ⟨steps, hsteps⟩ := exists_leads hw
    exact ⟨steps, segments, hsegments, hsteps⟩
  · rintro ⟨steps, segments, hsegments, hsteps⟩
    exact Option.bind_eq_some_iff.mpr ⟨segments, hsegments, hsteps.descend?⟩

theorem Leads.steps_of_segments (h : v.Leads segments steps w) : ∀ {more rest x},
    v.Leads more rest x → steps.map Step.segment = rest.map Step.segment → steps = rest := by
  induction h with
  | here =>
    intro more rest x k heq
    exact (List.map_eq_nil_iff.mp heq.symm).symm
  | member hpart _ ih =>
    intro more rest x k heq
    cases k with
    | here => cases heq
    | member hother k =>
      simp only [List.map_cons, List.cons.injEq, Step.segment] at heq
      obtain ⟨rfl, heq⟩ := heq
      cases hpart.symm.trans hother
      rw [ih k heq]
  | item hindex hpart _ ih =>
    intro more rest x k heq
    cases k with
    | here => cases heq
    | item kindex hother k =>
      simp only [List.map_cons, List.cons.injEq, Step.segment] at heq
      obtain ⟨hsame, heq⟩ := heq
      have hread := Pointer.index?_toString (Pointer.index?_le hindex)
      rw [hsame, Pointer.index?_toString (Pointer.index?_le kindex)] at hread
      cases hread
      cases hpart.symm.trans hother
      rw [ih k heq]

theorem Leads.plain (h : v.Leads segments steps w) : v.Leads (steps.map Step.segment) steps w := by
  induction h with
  | here => exact .here
  | member hpart _ ih => exact .member hpart ih
  | item hindex hpart _ ih =>
    exact .item (Pointer.index?_toString (Pointer.index?_le hindex)) hpart ih

theorem Sits.plain (h : v.Sits pointer steps w) : v.Sits (Pointer.plain steps) steps w := by
  obtain ⟨segments, -, hleads⟩ := h
  exact ⟨_, Pointer.segments?_plain steps, hleads.plain⟩

theorem Sits.position_iff (h : v.Sits pointer steps w) (k : v.Sits other rest x) :
    steps = rest ↔ Pointer.plain steps = Pointer.plain rest := by
  obtain ⟨segments, -, hleads⟩ := h
  obtain ⟨more, -, kleads⟩ := k
  refine ⟨fun heq => by rw [heq], fun heq => hleads.steps_of_segments kleads ?_⟩
  have hsegments := Pointer.segments?_plain steps
  rw [heq, Pointer.segments?_plain] at hsegments
  exact (Option.some.inj hsegments).symm

end Json

end SchemaBeans
