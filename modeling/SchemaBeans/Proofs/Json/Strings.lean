import SchemaBeans.Json.Merge
import SchemaBeans.Proofs.Reference.Anchoring

/-! # The strings of a value

Going down into a value, putting members in and out and merging make no new strings. Anchoring only
rewrites strings, each one as the reference that it may be. -/
namespace SchemaBeans.Json

/-- The string stands somewhere in the value; names do not count. -/
inductive Holds (s : String) : Json → Prop
  | string : Holds s (.string s)
  | item {items : List Json} {v : Json} (hv : v ∈ items) (h : Holds s v) : Holds s (.array items)
  | member {members : Members} {m : String × Json} (hm : m ∈ members) (h : Holds s m.2) :
      Holds s (.object members)

variable {s : String} {v w : Json} {items : List Json} {members : Members}

theorem holds_array : Holds s (.array items) ↔ ∃ v ∈ items, Holds s v := by
  constructor
  · rintro (_ | ⟨hv, h⟩)
    exact ⟨_, hv, h⟩
  · rintro ⟨v, hv, h⟩
    exact .item hv h

theorem holds_object : Holds s (.object members) ↔ ∃ m ∈ members, Holds s m.2 := by
  constructor
  · rintro (_ | _ | ⟨hm, h⟩)
    exact ⟨_, hm, h⟩
  · rintro ⟨m, hm, h⟩
    exact .member hm h

theorem longest_le_longestItem (hv : v ∈ items) : v.longest ≤ longestItem items := by
  induction items with
  | nil => cases hv
  | cons item rest ih =>
    rw [longestItem]
    rcases List.mem_cons.mp hv with rfl | hv
    · exact Nat.le_max_left _ _
    · exact Nat.le_trans (ih hv) (Nat.le_max_right _ _)

theorem longest_le_longestMember {m : String × Json} (hm : m ∈ members) :
    m.2.longest ≤ longestMember members := by
  induction members with
  | nil => cases hm
  | cons member rest ih =>
    rw [longestMember]
    rcases List.mem_cons.mp hm with rfl | hm
    · exact Nat.le_max_left _ _
    · exact Nat.le_trans (ih hm) (Nat.le_max_right _ _)

theorem Holds.length_le (h : Holds s v) : s.length ≤ v.longest := by
  induction h with
  | string => exact Nat.le_refl _
  | item hv _ ih => exact Nat.le_trans ih (longest_le_longestItem hv)
  | member hm _ ih => exact Nat.le_trans ih (longest_le_longestMember hm)

theorem mem_of_lookup {α β : Type} [BEq α] [LawfulBEq α] {entries : List (α × β)} {key : α}
    {value : β} (h : entries.lookup key = some value) : (key, value) ∈ entries := by
  obtain ⟨before, after, rfl, -⟩ := List.lookup_eq_some_iff.mp h
  simp

theorem Holds.of_step? {segment : String} (hw : v.step? segment = some w) (h : Holds s w) :
    Holds s v := by
  cases v with
  | object members => exact .member (mem_of_lookup hw) h
  | array items =>
    obtain ⟨i, -, hi⟩ := Option.bind_eq_some_iff.mp hw
    exact .item (List.mem_of_getElem? hi) h
  | _ => cases hw

theorem Holds.of_descend? : ∀ {segments : List String} {v : Json},
    v.descend? segments = some w → Holds s w → Holds s v
  | [], v, hw, h => by
    cases hw
    exact h
  | segment :: rest, v, hw, h => by
    unfold descend? at hw
    rw [List.foldlM_cons] at hw
    obtain ⟨next, hnext, hw⟩ := Option.bind_eq_some_iff.mp hw
    exact .of_step? hnext (Holds.of_descend? hw h)

theorem Holds.of_lookup? {pointer : String} (hw : v.lookup? pointer = some w) (h : Holds s w) :
    Holds s v := by
  obtain ⟨segments, -, hw⟩ := Option.bind_eq_some_iff.mp hw
  exact h.of_descend? hw

theorem size_step?_lt {segment : String} (hw : v.step? segment = some w) : w.size < v.size := by
  cases v with
  | object members => exact size_member_lt hw
  | array items =>
    obtain ⟨i, -, hi⟩ := Option.bind_eq_some_iff.mp hw
    exact size_item_lt (List.mem_of_getElem? hi)
  | _ => cases hw

theorem size_descend?_lt {segments : List String} (hne : segments ≠ [])
    (hw : v.descend? segments = some w) : w.size < v.size := by
  induction segments generalizing v with
  | nil => exact absurd rfl hne
  | cons segment rest ih =>
    unfold descend? at hw
    rw [List.foldlM_cons] at hw
    obtain ⟨next, hnext, hw⟩ := Option.bind_eq_some_iff.mp hw
    have hlt := size_step?_lt hnext
    cases rest with
    | nil =>
      cases hw
      exact hlt
    | cons => exact Nat.lt_trans (ih (by simp) hw) hlt

theorem mem_put {name : String} {value : Json} {m : String × Json} :
    m ∈ members.put name value → m.2 = value ∨ m ∈ members := by
  induction members with
  | nil =>
    intro h
    simp only [Members.put, List.mem_singleton] at h
    exact .inl (by rw [h])
  | cons first rest ih =>
    intro h
    unfold Members.put at h
    split at h
    · rcases List.mem_cons.mp h with rfl | h
      · exact .inl rfl
      · exact .inr (List.mem_cons_of_mem _ h)
    · rcases List.mem_cons.mp h with rfl | h
      · exact .inr (by simp)
      · exact (ih h).imp_right (List.mem_cons_of_mem _)

theorem mem_remove {name : String} {m : String × Json} (h : m ∈ members.remove name) :
    m ∈ members := by
  unfold Members.remove at h
  split at h
  · rename_i i last _ hlast
    rcases List.mem_or_eq_of_mem_set (List.dropLast_subset _ h) with h | rfl
    · exact h
    · exact List.mem_of_getLast? hlast
  · exact h

theorem mem_gain {items others : List Json} (h : v ∈ gain items others) :
    v ∈ items ∨ v ∈ others := by
  induction others generalizing items with
  | nil => exact .inl h
  | cons other rest ih =>
    rcases ih h with h | h
    · split at h
      · exact .inl h
      · rcases List.mem_append.mp h with h | h
        · exact .inl h
        · exact .inr (by simp_all)
    · exact .inr (List.mem_cons_of_mem _ h)

mutual

theorem Holds.of_merge : ∀ {a b : Json}, Holds s (a.merge b) → Holds s a ∨ Holds s b
  | a, .null, h | a, .bool _, h | a, .number _, h | a, .string _, h => by
    simp only [merge] at h
    exact .inr h
  | a, .array source, h => by
    unfold merge at h
    split at h
    · obtain ⟨v, hv, h⟩ := holds_array.mp h
      exact (mem_gain hv).imp (fun hv => .item hv h) (fun hv => .item hv h)
    · exact .inr h
  | a, .object source, h => by
    unfold merge at h
    split at h
    · obtain ⟨m, hm, h⟩ := holds_object.mp h
      exact (holds_of_mergeMembers hm h).imp holds_object.mpr holds_object.mpr
    · exact .inr h

theorem holds_of_mergeMembers : ∀ {source members : Members} {m : String × Json},
    m ∈ mergeMembers members source → Holds s m.2 →
      (∃ m ∈ members, Holds s m.2) ∨ ∃ m ∈ source, Holds s m.2
  | [], members, m, hm, h => .inl ⟨m, hm, h⟩
  | (name, value) :: rest, members, m, hm, h => by
    rw [mergeMembers] at hm
    rcases holds_of_mergeMembers hm h with ⟨m, hm, h⟩ | ⟨m, hm, h⟩
    · rcases mem_put hm with hvalue | hm
      · rw [hvalue] at h
        split at h
        · rename_i old hold
          rcases Holds.of_merge h with h | h
          · exact .inl ⟨_, mem_of_lookup hold, h⟩
          · exact .inr ⟨(name, value), by simp, h⟩
        · exact .inr ⟨(name, value), by simp, h⟩
      · exact .inl ⟨m, hm, h⟩
    · exact .inr ⟨m, List.mem_cons_of_mem _ hm, h⟩

end

/-- A string comes of another one: it is the same, or what the other one becomes as a reference. -/
def Rewrites (base old new : String) : Prop :=
  new = old ∨ ∃ target, Location.ofReference base old = .ok target ∧ new = target.text

theorem target?_eq_some {base : String} (h : target? base members = .ok (some s)) :
    ∃ old, Holds old (.object members) ∧ Rewrites base old s := by
  unfold target? at h
  split at h
  · rename_i reference href
    obtain ⟨place, hplace, h⟩ := ok_of_bind h
    cases h
    exact ⟨reference, .member (mem_of_lookup href) .string, .inr ⟨place, hplace, rfl⟩⟩
  · cases h

mutual

theorem Holds.of_anchor {base : String} : ∀ {v w : Json}, v.anchor base = .ok w → Holds s w →
    ∃ old, Holds old v ∧ Rewrites base old s
  | .null, w, hw, h | .bool _, w, hw, h | .number _, w, hw, h | .string _, w, hw, h => by
    unfold anchor at hw
    cases hw
    exact ⟨s, h, .inl rfl⟩
  | .array items, w, hw, h => by
    obtain ⟨out, hout, rfl⟩ := anchor_array hw
    obtain ⟨v, hv, h⟩ := holds_array.mp h
    obtain ⟨old, hold, hrewrites⟩ := holds_of_anchorItems hout hv h
    exact ⟨old, holds_array.mpr hold, hrewrites⟩
  | .object members, w, hw, h => by
    obtain ⟨target, out, htarget, hout, rfl⟩ := anchor_object hw
    obtain ⟨m, hm, h⟩ := holds_object.mp h
    rcases holds_of_anchorMembers hout hm h with ⟨old, hold, hrewrites⟩ | htext
    · exact ⟨old, holds_object.mpr hold, hrewrites⟩
    · rw [htext] at htarget
      exact target?_eq_some htarget

theorem holds_of_anchorItems {base : String} : ∀ {items out : List Json} {v : Json},
    anchorItems base items = .ok out → v ∈ out → Holds s v →
      ∃ old, (∃ v ∈ items, Holds old v) ∧ Rewrites base old s
  | [], out, v, hout, hv, h => by
    cases hout
    cases hv
  | item :: rest, out, v, hout, hv, h => by
    rw [anchorItems] at hout
    obtain ⟨first, hfirst, hout⟩ := ok_of_bind hout
    obtain ⟨others, hothers, hout⟩ := ok_of_bind hout
    cases hout
    rcases List.mem_cons.mp hv with hv | hv
    · rw [hv] at h
      obtain ⟨old, hold, hrewrites⟩ := Holds.of_anchor hfirst h
      exact ⟨old, ⟨item, by simp, hold⟩, hrewrites⟩
    · obtain ⟨old, ⟨v, hv, hold⟩, hrewrites⟩ := holds_of_anchorItems hothers hv h
      exact ⟨old, ⟨v, List.mem_cons_of_mem _ hv, hold⟩, hrewrites⟩

theorem holds_of_anchorMembers {base : String} {target : Option String} :
    ∀ {members out : Members} {m : String × Json}, anchorMembers base target members = .ok out →
      m ∈ out → Holds s m.2 →
      (∃ old, (∃ m ∈ members, Holds old m.2) ∧ Rewrites base old s) ∨ target = some s
  | [], out, m, hout, hm, h => by
    cases hout
    cases hm
  | (name, value) :: rest, out, m, hout, hm, h => by
    obtain ⟨y, others, rfl, hy, hothers⟩ := anchorMembers_cons hout
    rcases List.mem_cons.mp hm with hm | hm
    · rw [hm] at h
      cases hy with
      | data => exact .inl ⟨s, ⟨(name, value), by simp, h⟩, .inl rfl⟩
      | reference _ _ htarget =>
        cases h
        exact .inr htarget
      | value _ _ hy =>
        obtain ⟨old, hold, hrewrites⟩ := Holds.of_anchor hy h
        exact .inl ⟨old, ⟨(name, value), by simp, hold⟩, hrewrites⟩
    · exact (holds_of_anchorMembers hothers hm h).imp_left
        fun ⟨old, ⟨m, hm, hold⟩, hrewrites⟩ =>
          ⟨old, ⟨m, List.mem_cons_of_mem _ hm, hold⟩, hrewrites⟩

end

mutual

theorem Holds.of_unify : ∀ {v : Json}, Holds s v.unify → Holds s v
  | .null, h | .bool _, h | .number _, h | .string _, h => by
    unfold unify at h
    exact h
  | .array items, h => by
    rw [unify] at h
    obtain ⟨v, hv, h⟩ := holds_array.mp h
    exact holds_array.mpr (holds_of_unifyItems hv h)
  | .object members, h => by
    rw [unify] at h
    obtain ⟨m, hm, h⟩ := holds_object.mp h
    rcases holds_of_unifyMembers hm h with ⟨m, hm, _⟩ | h
    · cases hm
    · exact holds_object.mpr h

theorem holds_of_unifyItems : ∀ {items : List Json} {v : Json}, v ∈ unifyItems items → Holds s v →
    ∃ v ∈ items, Holds s v
  | [], v, hv, h => by cases hv
  | item :: rest, v, hv, h => by
    rw [unifyItems] at hv
    rcases List.mem_cons.mp hv with hv | hv
    · rw [hv] at h
      exact ⟨item, by simp, Holds.of_unify h⟩
    · obtain ⟨v, hv, h⟩ := holds_of_unifyItems hv h
      exact ⟨v, List.mem_cons_of_mem _ hv, h⟩

theorem holds_of_unifyMembers : ∀ {members done : Members} {m : String × Json},
    m ∈ unifyMembers done members → Holds s m.2 →
      (∃ m ∈ done, Holds s m.2) ∨ ∃ m ∈ members, Holds s m.2
  | [], done, m, hm, h => .inl ⟨m, hm, h⟩
  | (name, value) :: rest, done, m, hm, h => by
    rw [unifyMembers] at hm
    rcases holds_of_unifyMembers hm h with ⟨m, hm, h⟩ | ⟨m, hm, h⟩
    · rcases mem_put hm with hvalue | hm
      · rw [hvalue] at h
        exact .inr ⟨(name, value), by simp, Holds.of_unify h⟩
      · exact .inl ⟨m, hm, h⟩
    · exact .inr ⟨m, List.mem_cons_of_mem _ hm, h⟩

end

end SchemaBeans.Json
