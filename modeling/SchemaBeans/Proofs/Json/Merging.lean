import SchemaBeans.Proofs.Generation.Copies
import SchemaBeans.Proofs.Json.Ways

/-! # The members of merged values

Merging an object into another one keeps the order in which names occur first, and under each
name it merges the two values. So what objects list under `properties` and under `required` can
be told of the value that they are merged into, one after the other. -/
namespace SchemaBeans

section Occurrences

variable {α : Type} [BEq α] [LawfulBEq α]

theorem eraseDups_of_nodup : ∀ {xs : List α}, xs.Nodup → xs.eraseDups = xs
  | [], _ => rfl
  | x :: xs, h => by
    rw [List.nodup_cons] at h
    have hrest : xs.filter (fun y => !y == x) = xs := by
      refine List.filter_eq_self.mpr fun y hy => ?_
      have hne : y ≠ x := fun heq => h.1 (heq ▸ hy)
      simpa using hne
    rw [List.eraseDups_cons, hrest, eraseDups_of_nodup h.2]

theorem eraseDups_filter (p : α → Bool) : ∀ xs : List α,
    (xs.filter p).eraseDups = xs.eraseDups.filter p
  | [] => rfl
  | x :: xs => by
    have hrest := eraseDups_filter p (xs.filter fun y => !y == x)
    rw [List.eraseDups_cons]
    cases hx : p x with
    | true =>
      rw [List.filter_cons_of_pos hx, List.filter_cons_of_pos hx, List.eraseDups_cons,
        List.filter_comm, hrest]
    | false =>
      have hkept : (xs.filter fun y => !y == x).filter p = xs.filter p := by
        rw [List.filter_filter]
        refine List.filter_congr fun y _ => ?_
        by_cases heq : y = x
        · rw [heq, hx, Bool.false_and]
        · simp [heq]
      rw [List.filter_cons_of_neg (by simp [hx]), List.filter_cons_of_neg (by simp [hx]), ← hrest,
        hkept]
termination_by xs => xs.length
decreasing_by exact Nat.lt_succ_of_le (List.length_filter_le _ _)

theorem removeAll_congr {xs as bs : List α} (h : ∀ x, x ∈ as ↔ x ∈ bs) :
    xs.removeAll as = xs.removeAll bs :=
  List.filter_congr fun x _ => by simp [h x]

theorem nodup_eraseDups : ∀ xs : List α, xs.eraseDups.Nodup
  | [] => List.nodup_nil
  | x :: xs => by
    rw [List.eraseDups_cons, List.nodup_cons]
    refine ⟨fun h => ?_, nodup_eraseDups (xs.filter fun y => !y == x)⟩
    have hne := (List.mem_filter.mp (List.mem_eraseDups.mp h)).2
    simp at hne
termination_by xs => xs.length
decreasing_by exact Nat.lt_succ_of_le (List.length_filter_le _ _)

theorem eraseDups_eraseDups_append (as bs : List α) :
    (as.eraseDups ++ bs).eraseDups = (as ++ bs).eraseDups := by
  rw [List.eraseDups_append, List.eraseDups_append, eraseDups_of_nodup (nodup_eraseDups as),
    removeAll_congr fun _ => List.mem_eraseDups]

theorem eraseDups_append_eraseDups (as bs : List α) :
    (as.eraseDups ++ bs.eraseDups).eraseDups = (as ++ bs).eraseDups := by
  have hlater : bs.eraseDups.removeAll as = (bs.removeAll as).eraseDups :=
    (eraseDups_filter _ bs).symm
  rw [eraseDups_eraseDups_append, List.eraseDups_append, List.eraseDups_append, hlater,
    eraseDups_of_nodup (nodup_eraseDups _)]

end Occurrences

namespace Json

variable {members source : Members} {name other : String} {v w : Json}

theorem lookup_put (members : Members) (name : String) (v : Json) (other : String) :
    (Members.put members name v).lookup other =
      if other = name then some v else members.lookup other := by
  induction members with
  | nil =>
    rw [Members.put, List.lookup_cons]
    by_cases hother : other = name
    · simp [hother]
    · simp [hother, beq_eq_false_iff_ne.mpr hother]
  | cons member rest ih =>
    obtain ⟨key, old⟩ := member
    rw [Members.put]
    by_cases hkey : key = name
    · rw [if_pos hkey, List.lookup_cons, List.lookup_cons, hkey]
      by_cases hother : other = name
      · simp [hother]
      · simp [hother, beq_eq_false_iff_ne.mpr hother]
    · rw [if_neg hkey, List.lookup_cons, List.lookup_cons, ih]
      by_cases hother : other = key
      · simp [hother, hkey]
      · simp [beq_eq_false_iff_ne.mpr hother]

theorem names_put (members : Members) (name : String) (v : Json) :
    (Members.put members name v).map (·.1) =
      if name ∈ members.map (·.1) then members.map (·.1) else members.map (·.1) ++ [name] := by
  induction members with
  | nil => rfl
  | cons member rest ih =>
    obtain ⟨key, old⟩ := member
    rw [Members.put]
    by_cases hkey : key = name
    · simp [hkey]
    · rw [if_neg hkey, List.map_cons, ih, List.map_cons]
      by_cases hmem : name ∈ rest.map (·.1)
      · rw [if_pos hmem, if_pos (List.mem_cons_of_mem _ hmem)]
      · rw [if_neg hmem, if_neg, List.cons_append]
        exact fun hcons => (List.mem_cons.mp hcons).elim (Ne.symm hkey) hmem

theorem Distinct.put (h : Distinct members) (name : String) (v : Json) :
    Distinct (Members.put members name v) := by
  unfold Distinct at *
  rw [names_put]
  split
  · exact h
  · rename_i hnew
    exact List.nodup_append.mpr ⟨h, List.nodup_singleton _, fun a ha b hb heq =>
      hnew (List.mem_singleton.mp hb ▸ heq ▸ ha)⟩

theorem Distinct.mem_iff (h : Distinct members) :
    (name, v) ∈ members ↔ members.lookup name = some v :=
  ⟨h.lookup, mem_of_lookup⟩

theorem perm_remove (h : members.lookup name = some v) :
    members.Perm ((name, v) :: Members.remove members name) := by
  obtain ⟨before, after, rfl, hfirst⟩ := List.lookup_eq_some_iff.mp h
  have hnone : before.findIdx? (·.1 == name) = none := by
    refine List.findIdx?_eq_none_iff.mpr fun member hmember => ?_
    have hne := hfirst member hmember
    rw [bne_iff_ne] at hne
    simpa using hne.symm
  have hindex : (before ++ (name, v) :: after).findIdx? (·.1 == name) = some before.length := by
    rw [List.findIdx?_append, hnone, List.findIdx?_cons, if_pos (beq_self_eq_true name)]
    simp
  unfold Members.remove
  rw [hindex]
  rcases List.eq_nil_or_concat after with rfl | ⟨middle, last, rfl⟩
  · rw [List.getLast?_concat]
    simp
  · rw [List.concat_eq_append, ← List.cons_append, ← List.append_assoc, List.getLast?_concat]
    simp only [List.append_assoc, List.cons_append, List.set_append_right _ _ (Nat.le_refl _),
      Nat.sub_self, List.set_cons_zero]
    have hend : before ++ last :: (middle ++ [last]) = before ++ last :: middle ++ [last] := by simp
    rw [hend, List.dropLast_concat]
    refine List.perm_middle.trans (List.Perm.cons _ ?_)
    exact (List.perm_append_singleton last middle).append_left before

theorem Distinct.remove (h : Distinct members) (name : String) :
    Distinct (Members.remove members name) := by
  cases hlookup : members.lookup name with
  | none =>
    rw [remove_absent hlookup]
    exact h
  | some v =>
    have hnames := (perm_remove hlookup).map fun member : String × Json => member.1
    exact (List.nodup_cons.mp (hnames.nodup_iff.mp h)).2

theorem Distinct.lookup_perm {others : Members} (h : Distinct members) (hperm : members.Perm others)
    (name : String) : others.lookup name = members.lookup name := by
  have hnames := hperm.map fun member : String × Json => member.1
  have hothers : Distinct others := hnames.nodup_iff.mp h
  refine Option.ext fun v => ?_
  rw [← h.mem_iff, ← hothers.mem_iff, hperm.mem_iff]

theorem Distinct.lookup_remove (h : Distinct members) (hother : other ≠ name) :
    (Members.remove members name).lookup other = members.lookup other := by
  cases hlookup : members.lookup name with
  | none => rw [remove_absent hlookup]
  | some v =>
    rw [← h.lookup_perm (perm_remove hlookup) other, List.lookup_cons,
      beq_eq_false_iff_ne.mpr hother]

theorem Distinct.lookup_removed (h : Distinct members) (name : String) :
    (Members.remove members name).lookup name = none := by
  cases hlookup : members.lookup name with
  | none => rw [remove_absent hlookup, hlookup]
  | some v =>
    have hnames := (perm_remove hlookup).map fun member : String × Json => member.1
    exact lookup_eq_none.mpr (List.nodup_cons.mp (hnames.nodup_iff.mp h)).1

/-- What stands under a name after a merge, from what stood there and what is merged into it. -/
def overlay (old : Option Json) : Option Json → Option Json
  | none => old
  | some v => some (match old with
    | some old => old.merge v
    | none => v)

theorem mergeMembers_cons (members : Members) (name : String) (v : Json) (rest : Members) :
    ∃ merged, overlay (members.lookup name) (some v) = some merged ∧
      mergeMembers members ((name, v) :: rest) = mergeMembers (members.put name merged) rest := by
  rw [mergeMembers]
  cases members.lookup name <;> exact ⟨_, rfl, rfl⟩

theorem lookup_mergeMembers (hsource : Distinct source) (members : Members) (other : String) :
    (mergeMembers members source).lookup other =
      overlay (members.lookup other) (source.lookup other) := by
  induction source generalizing members with
  | nil => rfl
  | cons member rest ih =>
    obtain ⟨name, v⟩ := member
    rw [Distinct, List.map_cons, List.nodup_cons] at hsource
    obtain ⟨merged, hmerged, hrest⟩ := mergeMembers_cons members name v rest
    rw [hrest, ih hsource.2, lookup_put, List.lookup_cons]
    by_cases hother : other = name
    · rw [if_pos hother, hother, beq_self_eq_true, lookup_eq_none.mpr hsource.1]
      exact hmerged.symm
    · rw [if_neg hother, beq_eq_false_iff_ne.mpr hother]

theorem names_mergeMembers (hmembers : Distinct members) (source : Members) :
    (mergeMembers members source).map (·.1) =
      (members.map (·.1) ++ source.map (·.1)).eraseDups ∧
    Distinct (mergeMembers members source) := by
  induction source generalizing members with
  | nil =>
    rw [mergeMembers, List.map_nil, List.append_nil]
    exact ⟨(eraseDups_of_nodup hmembers).symm, hmembers⟩
  | cons member rest ih =>
    obtain ⟨name, v⟩ := member
    obtain ⟨merged, -, hrest⟩ := mergeMembers_cons members name v rest
    have hput := hmembers.put name merged
    obtain ⟨hnames, hdistinct⟩ := ih hput
    refine ⟨?_, hrest ▸ hdistinct⟩
    have hfirst : (Members.put members name merged).map (·.1) =
        (members.map (·.1) ++ [name]).eraseDups := by
      rw [names_put, List.eraseDups_append, eraseDups_of_nodup hmembers]
      by_cases hmem : name ∈ members.map (·.1)
      · rw [if_pos hmem]
        simp [List.removeAll, hmem]
      · rw [if_neg hmem]
        simp [List.removeAll, hmem, List.eraseDups_cons]
    rw [hrest, hnames, hfirst, eraseDups_eraseDups_append, List.append_assoc]
    rfl

def isScalar : Json → Bool
  | array _ | object _ => false
  | _ => true

theorem anchor_scalar {base : String} {s : Json} (hs : s.isScalar = true)
    (h : v.anchor base = .ok w) : w = s ↔ v = s := by
  cases v with
  | object members =>
    obtain ⟨_, _, _, _, rfl⟩ := anchor_object h
    constructor <;> rintro rfl <;> cases hs
  | array items =>
    obtain ⟨_, _, rfl⟩ := anchor_array h
    constructor <;> rintro rfl <;> cases hs
  | _ =>
    unfold anchor at h
    cases h
    exact Iff.rfl

theorem merge_scalar {s : Json} (hs : s.isScalar = true) (old v : Json) :
    old.merge v = s ↔ v = s := by
  cases v with
  | object source =>
    unfold merge
    split <;> constructor <;> rintro rfl <;> cases hs
  | array source =>
    unfold merge
    split <;> constructor <;> rintro rfl <;> cases hs
  | _ =>
    unfold merge
    exact Iff.rfl

theorem overlay_scalar {s : Json} (hs : s.isScalar = true) {old given : Option Json} :
    overlay old given = some s ↔ given = some s ∨ given = none ∧ old = some s := by
  cases given with
  | none => simp [overlay]
  | some v =>
    cases old with
    | none => simp [overlay]
    | some old => simp [overlay, merge_scalar hs]

theorem string?_eq_some {s : String} : v.string? = some s ↔ v = .string s := by
  cases v <;> simp [string?]

theorem number?_eq_some {n : JsonNumber} : v.number? = some n ↔ v = .number n := by
  cases v <;> simp [number?]

theorem same_string {s : String} (h : v.same (.string s) = true) : v = .string s := by
  cases v with
  | string t => rw [beq_iff_eq.mp h]
  | _ => cases h

theorem mem_strings {s : String} {items : List Json} :
    s ∈ items.filterMap string? ↔ .string s ∈ items := by
  simp [List.mem_filterMap, string?_eq_some]

theorem string_mem_gain {s : String} (source : List Json) : ∀ items : List Json,
    .string s ∈ gain items source ↔ .string s ∈ items ∨ .string s ∈ source := by
  refine fun items => ⟨mem_gain, ?_⟩
  induction source generalizing items with
  | nil => simp [gain]
  | cons item rest ih =>
    intro h
    rw [gain]
    refine ih _ ?_
    by_cases hany : items.any (·.same item) = true
    · rw [if_pos hany]
      obtain ⟨known, hknown, hsame⟩ := List.any_eq_true.mp hany
      have hthere : .string s = item → .string s ∈ items := by
        rintro rfl
        exact same_string hsame ▸ hknown
      rw [List.mem_cons] at h
      exact h.elim .inl fun h => h.imp_left hthere
    · rw [if_neg hany]
      rw [List.mem_append, List.mem_singleton, or_assoc, ← List.mem_cons]
      exact h

theorem string?_anchor {base : String} (h : v.anchor base = .ok w) : w.string? = v.string? := by
  refine Option.ext fun s => ?_
  rw [string?_eq_some, string?_eq_some, anchor_scalar rfl h]

theorem strings_anchorItems {base : String} {items out : List Json}
    (h : anchorItems base items = .ok out) : out.filterMap string? = items.filterMap string? := by
  induction items generalizing out with
  | nil =>
    rw [anchorItems] at h
    cases h
    rfl
  | cons item rest ih =>
    rw [anchorItems] at h
    obtain ⟨first, hfirst, h⟩ := ok_of_bind h
    obtain ⟨others, hothers, h⟩ := ok_of_bind h
    cases h
    rw [List.filterMap_cons, List.filterMap_cons, string?_anchor hfirst, ih hothers]

/-- An object that is no reference. As in every object, no name stands twice. -/
structure Inline (v : Json) : Prop where
  once : ∃ members, v = .object members ∧ Distinct members
  plain : ∀ reference, v.member? "$ref" ≠ some (.string reference)

theorem inline_nothing : (object []).Inline where
  once := ⟨[], rfl, List.nodup_nil⟩
  plain _ h := by cases h

theorem Inline.of_members {out : Members} (h : (object members).Inline) (hout : Distinct out)
    (hsame : out.lookup "$ref" = members.lookup "$ref") : (object out).Inline where
  once := ⟨out, rfl, hout⟩
  plain reference href := h.plain reference (hsame.symm.trans href)

theorem Inline.distinct (h : (object members).Inline) : Distinct members := by
  obtain ⟨_, hobject, hdistinct⟩ := h.once
  cases hobject
  exact hdistinct

theorem Inline.without (h : (object members).Inline) (hname : name ≠ "$ref") :
    (object (Members.remove members name)).Inline :=
  h.of_members (h.distinct.remove name) (h.distinct.lookup_remove hname.symm)

theorem Inline.with (h : (object members).Inline) (hname : name ≠ "$ref") (v : Json) :
    (object (Members.put members name v)).Inline := by
  refine h.of_members (h.distinct.put name v) ?_
  rw [lookup_put, if_neg hname.symm]

/-- It is anchored member by member. -/
theorem Inline.anchored {base : String} (h : v.Inline) (hw : v.anchor base = .ok w) :
    w.Inline ∧ ∃ members out, v = object members ∧ w = object out ∧
      anchorMembers base none members = .ok out := by
  obtain ⟨members, rfl, hdistinct⟩ := h.once
  obtain ⟨out, rfl, hout⟩ := anchor_plain h.plain hw
  refine ⟨⟨⟨out, rfl, hdistinct.anchored hout⟩, fun reference href => ?_⟩,
    members, out, rfl, rfl, hout⟩
  rcases anchorMembers_lookup hout "$ref" with ⟨-, hnone⟩ | ⟨x, y, hx, hy, hanchored⟩
  · rw [member?, hnone] at href
    cases href
  · obtain rfl := Option.some.inj (hy.symm.trans href)
    cases hanchored with
    | data hdata => exact absurd hdata (by decide)
    | reference _ _ htarget => cases htarget
    | value _ _ hanchor =>
      rw [(anchor_scalar rfl hanchor).mp rfl] at hx
      exact h.plain reference hx

theorem merge_objects (members source : Members) :
    (object members).merge (object source) = object (mergeMembers members source) := by
  rw [merge]

theorem Inline.merge (hv : v.Inline) (hw : w.Inline) : (v.merge w).Inline := by
  obtain ⟨members, rfl, hmembers⟩ := hv.once
  obtain ⟨source, rfl, hsource⟩ := hw.once
  rw [merge_objects]
  refine ⟨⟨_, rfl, (names_mergeMembers hmembers source).2⟩, fun reference href => ?_⟩
  rw [member?, lookup_mergeMembers hsource, overlay_scalar rfl] at href
  rcases href with hgiven | ⟨-, hold⟩
  · exact hw.plain reference hgiven
  · exact hv.plain reference hold

/-- The names of the members, if it is an object. -/
def keysOf : Option Json → List String
  | some (.object members) => members.map (·.1)
  | _ => []

def stringsOf : Option Json → List String
  | some (.array items) => items.filterMap string?
  | _ => []

@[simp] theorem keysOf_none : keysOf none = [] := rfl

@[simp] theorem keysOf_object (members : Members) :
    keysOf (some (.object members)) = members.map (·.1) := rfl

@[simp] theorem stringsOf_none : stringsOf none = [] := rfl

@[simp] theorem mem_stringsOf_array {s : String} {items : List Json} :
    s ∈ stringsOf (some (.array items)) ↔ .string s ∈ items := mem_strings

/-- The names under `properties`. -/
def propertyKeys (v : Json) : List String := keysOf (v.member? "properties")

/-- The names under `required`. -/
def requiredKeys (v : Json) : List String := stringsOf (v.member? "required")

theorem propertyKeys_object (members : Members) :
    (object members).propertyKeys = keysOf (members.lookup "properties") := rfl

theorem requiredKeys_object (members : Members) :
    (object members).requiredKeys = stringsOf (members.lookup "required") := rfl

/-- An object whose `properties` are an object, where it has them. As in every object, no name
stands twice. -/
structure Tabular (v : Json) : Prop where
  once : ∃ members, v = .object members ∧ Distinct members
  properties : ∀ x, v.member? "properties" = some x → ∃ listed, x = .object listed ∧ Distinct listed

/-- Its `required` is a list too, where it has one. -/
structure Listing (v : Json) : Prop extends v.Tabular where
  required : ∀ x, v.member? "required" = some x → ∃ items, x = .array items

/-- Whether an object lists keys, as it can be looked up. -/
def listsKeys : Json → Bool
  | object members => decide (Distinct members) &&
    (match members.lookup "properties" with
      | none => true
      | some (.object listed) => decide (Distinct listed)
      | some _ => false) &&
    match members.lookup "required" with
    | none | some (.array _) => true
    | some _ => false
  | _ => false

theorem listing_of_listsKeys (h : v.listsKeys = true) : v.Listing := by
  unfold listsKeys at h
  split at h
  · rename_i members
    simp only [Bool.and_eq_true, decide_eq_true_eq] at h
    obtain ⟨⟨hdistinct, hproperties⟩, hrequired⟩ := h
    refine ⟨⟨⟨members, rfl, hdistinct⟩, fun x hx => ?_⟩, fun x hx => ?_⟩
    · rw [show members.lookup "properties" = some x from hx] at hproperties
      cases x with
      | object listed => exact ⟨listed, rfl, of_decide_eq_true hproperties⟩
      | _ => cases hproperties
    · rw [show members.lookup "required" = some x from hx] at hrequired
      cases x with
      | array items => exact ⟨items, rfl⟩
      | _ => cases hrequired
  · cases h

theorem Listing.listsKeys (h : v.Listing) : v.listsKeys = true := by
  obtain ⟨members, rfl, hdistinct⟩ := h.once
  have hproperties := h.properties
  have hrequired := h.required
  unfold member? at hproperties hrequired
  simp only [Json.listsKeys, hdistinct, decide_true, Bool.true_and, Bool.and_eq_true]
  constructor
  · cases hx : members.lookup "properties" with
    | none => rfl
    | some x =>
      obtain ⟨listed, rfl, honce⟩ := hproperties x hx
      exact decide_eq_true honce
  · cases hx : members.lookup "required" with
    | none => rfl
    | some x =>
      obtain ⟨items, rfl⟩ := hrequired x hx
      rfl

instance : Decidable v.Listing :=
  decidable_of_iff (v.listsKeys = true) ⟨listing_of_listsKeys, Listing.listsKeys⟩

/-- An object with the property keys of the parts, in the order in which these occur first. -/
structure Tabulates (v : Json) (parts : List Json) : Prop extends v.Tabular, v.Inline where
  propertyKeys : v.propertyKeys = (parts.flatMap Json.propertyKeys).eraseDups

/-- An object that lists what the parts list: their property keys, and the keys that any of them
requires. -/
structure Gathers (v : Json) (parts : List Json) : Prop extends v.Tabulates parts where
  required : ∀ x, v.member? "required" = some x → ∃ items, x = .array items
  requiredKeys : ∀ key, key ∈ v.requiredKeys ↔ key ∈ parts.flatMap Json.requiredKeys

theorem Gathers.listing {parts : List Json} (h : v.Gathers parts) : v.Listing :=
  ⟨h.toTabular, h.required⟩

theorem Tabular.nodup (h : v.Tabular) : v.propertyKeys.Nodup := by
  unfold propertyKeys
  cases hlisted : v.member? "properties" with
  | none => exact List.nodup_nil
  | some x =>
    obtain ⟨listed, rfl, hdistinct⟩ := h.properties x hlisted
    exact hdistinct

theorem Tabulates.of_members {parts : List Json} {out : Members}
    (h : (object members).Tabulates parts) (hout : (object out).Inline)
    (hsame : out.lookup "properties" = members.lookup "properties") :
    (object out).Tabulates parts := by
  have hproperties : (object out).member? "properties" = (object members).member? "properties" :=
    hsame
  refine ⟨⟨hout.once, ?_⟩, hout.plain, ?_⟩
  · rw [hproperties]
    exact h.properties
  · rw [← h.propertyKeys]
    unfold Json.propertyKeys
    rw [hproperties]

theorem Gathers.of_members {parts : List Json} {out : Members} (h : (object members).Gathers parts)
    (hout : (object out).Tabulates parts)
    (hsame : out.lookup "required" = members.lookup "required") : (object out).Gathers parts := by
  have hrequired : (object out).member? "required" = (object members).member? "required" := hsame
  refine ⟨hout, ?_, ?_⟩
  · rw [hrequired]
    exact h.required
  · intro key
    rw [← h.requiredKeys]
    unfold Json.requiredKeys
    rw [hrequired]

theorem tabulates_nothing : (object []).Tabulates [] where
  once := ⟨[], rfl, List.nodup_nil⟩
  properties _ h := by cases h
  plain _ h := by cases h
  propertyKeys := rfl

theorem gathers_nothing : (object []).Gathers [] where
  toTabulates := tabulates_nothing
  required _ h := by cases h
  requiredKeys key := Iff.rfl

theorem Tabular.tabulates (h : v.Tabular) (hinline : v.Inline) : v.Tabulates [v] where
  toTabular := h
  plain := hinline.plain
  propertyKeys := by
    rw [List.flatMap_singleton, eraseDups_of_nodup h.nodup]

theorem Listing.gathers (h : v.Listing) (hinline : v.Inline) : v.Gathers [v] where
  toTabulates := h.toTabular.tabulates hinline
  required := h.required
  requiredKeys key := by
    rw [List.flatMap_singleton]

theorem Tabulates.without {parts : List Json} (h : (object members).Tabulates parts)
    (hname : name ∉ ["properties", "$ref"]) :
    (object (Members.remove members name)).Tabulates parts := by
  have hne : ∀ other ∈ ["properties", "$ref"], other ≠ name :=
    fun other hother heq => hname (heq ▸ hother)
  exact h.of_members (h.toInline.without (hne _ (by decide)).symm)
    (h.toInline.distinct.lookup_remove (hne _ (by decide)))

theorem Tabulates.with {parts : List Json} (h : (object members).Tabulates parts)
    (hname : name ∉ ["properties", "$ref"]) (v : Json) :
    (object (Members.put members name v)).Tabulates parts := by
  have hne : ∀ other ∈ ["properties", "$ref"], other ≠ name :=
    fun other hother heq => hname (heq ▸ hother)
  refine h.of_members (h.toInline.with (hne _ (by decide)).symm v) ?_
  rw [lookup_put, if_neg (hne _ (by decide))]

theorem anchored_lookup {base : String} {out : Members} (hdata : name ∉ dataKeywords)
    (hname : name ≠ "$ref") (hout : anchorMembers base none members = .ok out) :
    (members.lookup name = none ∧ out.lookup name = none) ∨
      ∃ x y, members.lookup name = some x ∧ out.lookup name = some y ∧ x.anchor base = .ok y := by
  refine (anchorMembers_lookup hout name).imp_right ?_
  rintro ⟨x, y, hx, hy, hanchored⟩
  cases hanchored with
  | data h => exact absurd h hdata
  | reference _ href => exact absurd href hname
  | value _ _ hanchor => exact ⟨x, y, hx, hy, hanchor⟩

/-- Anchoring an object keeps what it lists, because only values under names change. -/
theorem Tabulates.anchored {parts : List Json} {base : String} (h : v.Tabulates parts)
    (hw : v.anchor base = .ok w) : w.Tabulates parts := by
  obtain ⟨hinline, members, out, rfl, rfl, hout⟩ := h.toInline.anchored hw
  rcases @anchored_lookup _ "properties" _ _ (by decide) (by decide) hout with
    ⟨hx, hy⟩ | ⟨x, y, hx, hy, hanchor⟩
  · exact h.of_members hinline (hy.trans hx.symm)
  · obtain ⟨listed, rfl, honce⟩ := h.properties x hx
    obtain ⟨_, copied, _, hcopied, rfl⟩ := anchor_object hanchor
    refine ⟨⟨hinline.once, fun z hz => ?_⟩, hinline.plain, ?_⟩
    · obtain rfl := Option.some.inj (hy.symm.trans hz)
      exact ⟨copied, rfl, honce.anchored hcopied⟩
    · rw [← h.propertyKeys, propertyKeys_object, propertyKeys_object, hx, hy]
      exact anchorMembers_names hcopied

theorem Gathers.anchored {parts : List Json} {base : String} (h : v.Gathers parts)
    (hw : v.anchor base = .ok w) : w.Gathers parts := by
  have htabulates := h.toTabulates.anchored hw
  obtain ⟨-, members, out, rfl, rfl, hout⟩ := h.toInline.anchored hw
  rcases @anchored_lookup _ "required" _ _ (by decide) (by decide) hout with
    ⟨hx, hy⟩ | ⟨x, y, hx, hy, hanchor⟩
  · exact h.of_members htabulates (hy.trans hx.symm)
  · obtain ⟨items, rfl⟩ := h.required x hx
    obtain ⟨copied, hcopied, rfl⟩ := anchor_array hanchor
    refine ⟨htabulates, fun z hz => ?_, fun key => ?_⟩
    · obtain rfl := Option.some.inj (hy.symm.trans hz)
      exact ⟨copied, rfl⟩
    · have hsame : stringsOf (some (.array copied)) = stringsOf (some (.array items)) :=
        strings_anchorItems hcopied
      rw [← h.requiredKeys, requiredKeys_object, requiredKeys_object, hx, hy, hsame]

section Merge

variable {parts others : List Json}

/-- What is merged one after the other has the properties that all of it has. -/
theorem Tabulates.merge (hv : v.Tabulates parts) (hw : w.Tabulates others) :
    (v.merge w).Tabulates (parts ++ others) := by
  have hinline := hv.toInline.merge hw.toInline
  have hnodup := hv.toTabular.nodup
  have hkeys : (∀ x, (v.merge w).member? "properties" = some x →
      ∃ listed, x = .object listed ∧ Distinct listed) ∧
      (v.merge w).propertyKeys = (v.propertyKeys ++ w.propertyKeys).eraseDups := by
    obtain ⟨members, rfl, hmembers⟩ := hv.once
    obtain ⟨source, rfl, hsource⟩ := hw.once
    rw [propertyKeys_object] at hnodup ⊢
    rw [merge_objects, propertyKeys_object, propertyKeys_object, member?,
      lookup_mergeMembers hsource members "properties"]
    cases hgiven : source.lookup "properties" with
    | none =>
      refine ⟨hv.properties, ?_⟩
      rw [keysOf_none, List.append_nil, eraseDups_of_nodup hnodup]
      rfl
    | some given =>
      obtain ⟨more, rfl, hmore⟩ := hw.properties given hgiven
      cases hold : members.lookup "properties" with
      | none => exact ⟨fun _ hsome => ⟨more, (Option.some.inj hsome).symm, hmore⟩,
          (eraseDups_of_nodup hmore).symm⟩
      | some old =>
        obtain ⟨listed, rfl, hlisted⟩ := hv.properties old hold
        obtain ⟨hnames, hdistinct⟩ := names_mergeMembers hlisted more
        simp only [overlay, merge_objects]
        exact ⟨fun _ hsome => ⟨_, (Option.some.inj hsome).symm, hdistinct⟩, hnames⟩
  refine ⟨⟨hinline.once, hkeys.1⟩, hinline.plain, ?_⟩
  rw [hkeys.2, hv.propertyKeys, hw.propertyKeys, List.flatMap_append]
  exact eraseDups_append_eraseDups _ _

theorem Gathers.required_merge (hv : v.Gathers parts) (hw : w.Gathers others) :
    (∀ x, (v.merge w).member? "required" = some x → ∃ items, x = .array items) ∧
    ∀ key, key ∈ (v.merge w).requiredKeys ↔ key ∈ v.requiredKeys ∨ key ∈ w.requiredKeys := by
  obtain ⟨members, rfl, hmembers⟩ := hv.once
  obtain ⟨source, rfl, hsource⟩ := hw.once
  rw [merge_objects, requiredKeys_object, requiredKeys_object, requiredKeys_object, member?,
    lookup_mergeMembers hsource members "required"]
  cases hgiven : source.lookup "required" with
  | none => exact ⟨hv.required, fun key => by simp [overlay]⟩
  | some given =>
    obtain ⟨more, rfl⟩ := hw.required given hgiven
    cases hold : members.lookup "required" with
    | none =>
      refine ⟨fun _ hsome => ⟨more, (Option.some.inj hsome).symm⟩, fun key => ?_⟩
      simp [overlay]
    | some old =>
      obtain ⟨items, rfl⟩ := hv.required old hold
      have hmerge : (array items).merge (array more) = array (gain items more) := by rw [merge]
      simp only [overlay, hmerge, mem_stringsOf_array]
      exact ⟨fun _ hsome => ⟨_, (Option.some.inj hsome).symm⟩, fun key =>
        string_mem_gain more items⟩

/-- What is merged one after the other lists what all of it lists. -/
theorem Gathers.merge (hv : v.Gathers parts) (hw : w.Gathers others) :
    (v.merge w).Gathers (parts ++ others) := by
  obtain ⟨hrequired, hneeded⟩ := hv.required_merge hw
  refine ⟨hv.toTabulates.merge hw.toTabulates, hrequired, fun key => ?_⟩
  rw [hneeded, hv.requiredKeys, hw.requiredKeys, List.flatMap_append, List.mem_append]

end Merge

/-- A value that is put together from the parts by merging, where references may be anchored and
what a merge does not pass on may be left out. The predicate tells what a part is. -/
inductive Assembled (Part : Json → Prop) : Json → List Json → Prop
  | nothing : Assembled Part (.object []) []
  | whole {v : Json} (h : Part v) : Assembled Part v [v]
  | anchored {v w : Json} {parts : List Json} {base : String} (h : Assembled Part v parts)
      (hw : v.anchor base = .ok w) : Assembled Part w parts
  | without {members : Members} {parts : List Json} {name : String}
      (h : Assembled Part (.object members) parts)
      (hname : name ∈ ["allOf", "discriminator", "deserializationClassProperty"]) :
      Assembled Part (.object (members.remove name)) parts
  | extending {members : Members} {parts : List Json} (h : Assembled Part (.object members) parts)
      (v : Json) : Assembled Part (.object (members.put "extends" v)) parts
  | merge {v w : Json} {parts others : List Json} (hv : Assembled Part v parts)
      (hw : Assembled Part w others) : Assembled Part (v.merge w) (parts ++ others)

theorem Assembled.inline {Part : Json → Prop} {parts : List Json}
    (hpart : ∀ v, Part v → v.Inline) (h : Assembled Part v parts) : v.Inline := by
  induction h with
  | nothing => exact inline_nothing
  | whole h => exact hpart _ h
  | anchored _ hw ih => exact (ih.anchored hw).1
  | without _ hname ih =>
    refine ih.without ?_
    rintro rfl
    exact absurd hname (by decide)
  | extending _ v ih => exact ih.with (by decide) v
  | merge _ _ ihv ihw => exact ihv.merge ihw

/-- What is said of a part, where the part is no reference. -/
def Stated (Part : Json → Prop) (v : Json) : Prop := Part v ∧ v.Inline

theorem Assembled.tabulates {parts : List Json} (h : Assembled (Stated Tabular) v parts) :
    v.Tabulates parts := by
  induction h with
  | nothing => exact tabulates_nothing
  | whole h => exact h.1.tabulates h.2
  | anchored _ hw ih => exact ih.anchored hw
  | without _ hname ih =>
    refine ih.without ?_
    simp only [List.mem_cons, List.not_mem_nil, or_false] at hname
    obtain rfl | rfl | rfl := hname <;> decide
  | extending _ v ih => exact ih.with (by decide) v
  | merge _ _ ihv ihw => exact ihv.merge ihw

theorem Assembled.gathers {parts : List Json} (h : Assembled (Stated Listing) v parts) :
    v.Gathers parts := by
  induction h with
  | nothing => exact gathers_nothing
  | whole h => exact h.1.gathers h.2
  | anchored _ hw ih => exact ih.anchored hw
  | @without members parts name _ hname ih =>
    simp only [List.mem_cons, List.not_mem_nil, or_false] at hname
    refine ih.of_members (ih.toTabulates.without ?_)
      (ih.toInline.distinct.lookup_remove ?_) <;> obtain rfl | rfl | rfl := hname <;> decide
  | extending _ v ih =>
    refine ih.of_members (ih.toTabulates.with (by decide) v) ?_
    rw [lookup_put, if_neg (by decide)]
  | merge _ _ ihv ihw => exact ihv.merge ihw

end Json

end SchemaBeans
