import SchemaBeans.Proofs.Binary64.Order
import SchemaBeans.Proofs.Json.Merging

/-! # Laws of merging

Merging a value a second time changes nothing. Merging is also associative where the values are
of one kind wherever all of them have something, in objects below objects: it does not matter
then in which groups values are merged, and neither the order of members nor that of items
depends on it. -/
namespace SchemaBeans

theorem Binary64.same_iff {a b : Binary64} (ha : a.isFinite = true) (hb : b.isFinite = true) :
    a.same b = true ↔ a.value = b.value := by
  cases a with
  | finite s m e =>
    cases b with
    | finite t n f =>
      obtain ⟨x, y, hcompare, -, hsame⟩ := @compare?_finite m e s t n f
      rw [same, hcompare, beq_iff_eq, Option.some.injEq, compare_eq_iff_eq, hsame]
    | _ => cases hb
  | _ => cases ha

theorem Binary64.same_trans {a b c : Binary64} (h : a.same b = true) (k : b.same c = true) :
    a.same c = true := by
  cases a with
  | nan => cases h
  | infinite s =>
    cases b with
    | nan => cases h
    | finite t n f => cases s <;> cases h
    | infinite t =>
      cases s <;> cases t <;> first | exact k | cases h
  | finite s m e =>
    cases b with
    | nan => cases h
    | infinite t => cases t <;> cases h
    | finite t n f =>
      cases c with
      | nan => cases k
      | infinite u => cases u <;> cases k
      | finite u o g =>
        have hab := (same_iff rfl rfl).mp h
        exact (same_iff rfl rfl).mpr (hab.trans ((same_iff rfl rfl).mp k))

theorem JsonNumber.same_trans {a b c : JsonNumber} (h : a.same b = true) (k : b.same c = true) :
    a.same c = true := by
  cases a with
  | integer x =>
    cases b with
    | integer y => rw [beq_iff_eq.mp h]; exact k
    | float y => cases h
  | float x =>
    cases b with
    | integer y => cases h
    | float y =>
      cases c with
      | integer z => cases k
      | float z => exact Binary64.same_trans h k

namespace Json

variable {v w : Json} {items source : List Json} {members others : Members} {name : String}

/-- No name stands twice in an object, and every double is finite. -/
inductive Proper : Json → Prop
  | null : Proper null
  | bool (value : Bool) : Proper (bool value)
  | integer (value : Int) : Proper (number (.integer value))
  | float {value : Binary64} (h : value.isFinite = true) : Proper (number (.float value))
  | string (value : String) : Proper (string value)
  | array {items : List Json} (h : ∀ item ∈ items, Proper item) : Proper (array items)
  | object {members : Members} (hdistinct : Distinct members)
      (h : ∀ member ∈ members, Proper member.2) : Proper (object members)

theorem sameItems_iff : ∀ {as bs : List Json},
    sameItems as bs = true ↔ List.Forall₂ (fun a b => a.same b = true) as bs
  | [], [] => by simp [sameItems]
  | [], _ :: _ => by simp [sameItems]
  | _ :: _, [] => by simp [sameItems]
  | a :: as, b :: bs => by
    rw [sameItems, Bool.and_eq_true, List.forall₂_cons, sameItems_iff]

theorem sameMembers_iff : sameMembers members others = true ↔
    ∀ member ∈ members, ∃ found, others.lookup member.1 = some found ∧
      member.2.same found = true := by
  induction members with
  | nil => simp [sameMembers]
  | cons member rest ih =>
    obtain ⟨name, value⟩ := member
    rw [sameMembers, Bool.and_eq_true, ih, List.forall_mem_cons]
    refine and_congr_left fun _ => ?_
    cases others.lookup name <;> simp

theorem Proper.same (h : v.Proper) : v.same v = true := by
  induction h with
  | null => rfl
  | bool value => exact beq_self_eq_true value
  | integer value => exact beq_self_eq_true value
  | float hvalue => exact (Binary64.same_iff hvalue hvalue).mpr rfl
  | string value => exact beq_self_eq_true value
  | array _ ih => exact sameItems_iff.mpr (List.forall₂_same.mpr ih)
  | @object members hdistinct _ ih =>
    rw [Json.same, beq_self_eq_true, Bool.true_and, sameMembers_iff]
    exact fun member hmember => ⟨_, hdistinct.lookup hmember, ih member hmember⟩

mutual

theorem same_trans : ∀ {a b c : Json}, a.same b = true → b.same c = true → a.same c = true
  | .null, .null, _, _, k => k
  | .bool _, .bool _, _, h, k => by rw [beq_iff_eq.mp h]; exact k
  | .string _, .string _, _, h, k => by rw [beq_iff_eq.mp h]; exact k
  | .number _, .number _, .number _, h, k => JsonNumber.same_trans h k
  | .array as, .array _, .array _, h, k => sameItems_trans as h k
  | .object as, .object bs, .object cs, h, k => by
    rw [same, Bool.and_eq_true, beq_iff_eq] at h k ⊢
    exact ⟨h.1.trans k.1, sameMembers_trans as h.2 k.2⟩

theorem sameItems_trans : ∀ (as : List Json) {bs cs : List Json}, sameItems as bs = true →
    sameItems bs cs = true → sameItems as cs = true
  | [], [], _, _, k => k
  | _ :: as, _ :: _, _ :: _, h, k => by
    rw [sameItems, Bool.and_eq_true] at h k ⊢
    exact ⟨same_trans h.1 k.1, sameItems_trans as h.2 k.2⟩

theorem sameMembers_trans : ∀ (as : Members) {bs cs : Members}, sameMembers as bs = true →
    sameMembers bs cs = true → sameMembers as cs = true
  | [], _, _, _, _ => by rw [sameMembers]
  | (name, value) :: as, bs, cs, h, k => by
    rw [sameMembers_iff] at h
    obtain ⟨⟨found, hfound, hsame⟩, hrest⟩ := List.forall_mem_cons.mp h
    obtain ⟨last, hlast, hnext⟩ := sameMembers_iff.mp k _ (mem_of_lookup hfound)
    rw [sameMembers, hlast, Bool.and_eq_true]
    exact ⟨same_trans hsame hnext, sameMembers_trans as (sameMembers_iff.mpr hrest) k⟩

end

/-- One of the items equals the value. -/
def Has (items : List Json) (v : Json) : Prop := ∃ item ∈ items, item.same v = true

theorem has_append {more : List Json} (h : Has items v) : Has (items ++ more) v := by
  obtain ⟨item, hitem, hsame⟩ := h
  exact ⟨item, List.mem_append_left more hitem, hsame⟩

theorem Has.trans (h : Has items v) (hw : v.same w = true) : Has items w := by
  obtain ⟨item, hitem, hsame⟩ := h
  exact ⟨item, hitem, same_trans hsame hw⟩

theorem gain_cons_of_has (h : Has items v) : gain items (v :: source) = gain items source := by
  rw [gain, if_pos (List.any_eq_true.mpr h)]

theorem gain_cons_of_not_has (h : ¬ Has items v) :
    gain items (v :: source) = gain (items ++ [v]) source := by
  rw [gain, if_neg fun hany => h (List.any_eq_true.mp hany)]

theorem gain_append (more : List Json) : ∀ items : List Json,
    gain items (source ++ more) = gain (gain items source) more := by
  induction source with
  | nil => exact fun _ => rfl
  | cons v rest ih =>
    intro items
    rw [List.cons_append, gain, gain, ih]

theorem has_gain (hv : v.same v = true) : ∀ items : List Json, Has items v ∨ v ∈ source →
    Has (gain items source) v := by
  induction source with
  | nil => exact fun items h => h.resolve_right List.not_mem_nil
  | cons w rest ih =>
    intro items h
    by_cases hw : Has items w
    · rw [gain_cons_of_has hw]
      refine ih items ?_
      rcases h with h | h
      · exact .inl h
      · rcases List.mem_cons.mp h with rfl | h
        · exact .inl hw
        · exact .inr h
    · rw [gain_cons_of_not_has hw]
      refine ih _ ?_
      rcases h with h | h
      · exact .inl (has_append h)
      · rcases List.mem_cons.mp h with rfl | h
        · exact .inl ⟨v, List.mem_append_right items (List.mem_singleton_self v), hv⟩
        · exact .inr h

theorem gain_eq_self (h : ∀ v ∈ source, Has items v) : gain items source = items := by
  induction source with
  | nil => rfl
  | cons v rest ih =>
    obtain ⟨hv, hrest⟩ := List.forall_mem_cons.mp h
    rw [gain_cons_of_has hv, ih hrest]

theorem gain_gain {more : List Json} : ∀ source : List Json, (∀ v ∈ source, v.same v = true) →
    (∀ v ∈ more, v.same v = true) → gain (gain items source) more =
    gain items (gain source more) := by
  induction more with
  | nil => exact fun _ _ _ => rfl
  | cons v rest ih =>
    intro source hsource hmore
    obtain ⟨hv, hrest⟩ := List.forall_mem_cons.mp hmore
    by_cases hknown : Has source v
    · -- What equals an item of the middle list equals an item of the outer one too.
      obtain ⟨item, hitem, hsame⟩ := hknown
      have hgained := has_gain (hsource item hitem) items (.inr hitem)
      rw [gain_cons_of_has ⟨item, hitem, hsame⟩, gain_cons_of_has (hgained.trans hsame),
        ih source hsource hrest]
    · have hlonger : ∀ w ∈ source ++ [v], w.same w = true :=
        List.forall_mem_append.mpr ⟨hsource, List.forall_mem_singleton.mpr hv⟩
      calc gain (gain items source) (v :: rest)
          = gain (gain (gain items source) [v]) rest := @gain_append [v] rest (gain items source)
        _ = gain (gain items (source ++ [v])) rest := by rw [gain_append]
        _ = gain items (gain (source ++ [v]) rest) := ih _ hlonger hrest
        _ = gain items (gain source (v :: rest)) := by rw [gain_cons_of_not_has hknown]

theorem put_self (h : members.lookup name = some v) : members.put name v = members := by
  induction members with
  | nil => cases h
  | cons member rest ih =>
    obtain ⟨key, old⟩ := member
    rw [Members.put]
    rw [List.lookup_cons] at h
    by_cases hkey : key = name
    · rw [if_pos hkey]
      rw [hkey, beq_self_eq_true] at h
      rw [Option.some.inj h]
    · rw [beq_eq_false_iff_ne.mpr (Ne.symm hkey)] at h
      rw [if_neg hkey, ih h]

theorem mergeMembers_eq_self : ∀ {more : Members}, (∀ member ∈ more, ∃ old,
    members.lookup member.1 = some old ∧ old.merge member.2 = old) →
    mergeMembers members more = members
  | [], _ => by rw [mergeMembers]
  | (name, v) :: rest, h => by
    obtain ⟨⟨old, hold, hsame⟩, hrest⟩ := List.forall_mem_cons.mp h
    rw [mergeMembers]
    simp only [hold, hsame]
    rw [put_self hold, mergeMembers_eq_self hrest]

theorem merge_arrays (items source : List Json) :
    (array items).merge (array source) = array (gain items source) := by
  rw [merge]

theorem merge_array (h : v.array? = none) : v.merge (array items) = array items := by
  cases v with
  | array => cases h
  | _ => simp [merge]

theorem merge_object (h : v.isObject = false) : v.merge (object members) = object members := by
  cases v with
  | object => cases h
  | _ => simp [merge]

theorem null_merge (v : Json) : Json.null.merge v = v := by
  cases v <;> simp [merge]

/-- Merging a value a second time changes nothing. -/
theorem Proper.merge_again (h : w.Proper) : ∀ v : Json, (v.merge w).merge w = v.merge w := by
  induction h with
  | @array items hitems ih =>
    intro v
    have hgain : ∀ old, gain (gain old items) items = gain old items := fun old =>
      gain_eq_self fun item hitem => has_gain (hitems item hitem).same old (.inr hitem)
    have hself : gain items items = items :=
      gain_eq_self fun item hitem => ⟨item, hitem, (hitems item hitem).same⟩
    cases hv : v.array? with
    | none => rw [merge_array hv, merge_arrays, hself]
    | some old =>
      cases v with
      | array => rw [merge_arrays, merge_arrays, hgain]
      | _ => cases hv
  | @object source hdistinct _ ih =>
    intro v
    -- A member that stands alone is merged into itself.
    have hself : ∀ member ∈ source, member.2.merge member.2 = member.2 := by
      intro member hmember
      have hnull := ih member hmember Json.null
      rwa [null_merge] at hnull
    cases hv : v.isObject with
    | false =>
      rw [merge_object hv, merge_objects, mergeMembers_eq_self fun member hmember =>
        ⟨member.2, hdistinct.lookup hmember, hself member hmember⟩]
    | true =>
      cases v with
      | object members =>
        rw [merge_objects, merge_objects, mergeMembers_eq_self]
        intro member hmember
        rw [lookup_mergeMembers hdistinct, hdistinct.lookup hmember]
        cases members.lookup member.1 with
        | none => exact ⟨_, rfl, hself member hmember⟩
        | some old => exact ⟨_, rfl, ih member hmember old⟩
      | _ => cases hv
  | _ => exact fun _ => by simp only [merge]

/-- What is merged in one way: objects, arrays, and everything else. -/
inductive Kind where
  | object
  | array
  | other
  deriving DecidableEq, Repr

def kind : Json → Kind
  | object _ => .object
  | array _ => .array
  | _ => .other

/-- At every way down through objects that all three values have, what they have there is of one
kind. -/
def Alike (a b c : Json) : Prop := ∀ names x y z, Through a names x → Through b names y →
  Through c names z → x.kind = y.kind ∧ y.kind = z.kind

theorem Alike.member {as bs cs : Members} {x y z : Json}
    (h : Alike (object as) (object bs) (object cs)) (hx : as.lookup name = some x)
    (hy : bs.lookup name = some y) (hz : cs.lookup name = some z) : Alike x y z :=
  fun names u v w hu hv hw => h (name :: names) u v w ⟨as, x, rfl, hx, hu⟩ ⟨bs, y, rfl, hy, hv⟩
    ⟨cs, z, rfl, hz, hw⟩

/-- Members in one order with the same values under their names are the same. -/
theorem Distinct.ext : ∀ {members others : Members}, Distinct members →
    members.map (·.1) = others.map (·.1) →
    (∀ name, members.lookup name = others.lookup name) → members = others
  | [], [], _, _, _ => rfl
  | [], _ :: _, _, hnames, _ => by cases hnames
  | _ :: _, [], _, hnames, _ => by cases hnames
  | (name, v) :: rest, (key, w) :: more, hdistinct, hnames, hlookup => by
    rw [List.map_cons, List.map_cons, List.cons.injEq] at hnames
    obtain ⟨hname, hrest⟩ := hnames
    dsimp only at hname
    subst hname
    obtain ⟨hnew, hbelow⟩ := List.nodup_cons.mp hdistinct
    have hsame := hlookup name
    rw [List.lookup_cons_self, List.lookup_cons_self] at hsame
    rw [Option.some.inj hsame, Distinct.ext hbelow hrest fun other => ?_]
    by_cases hother : other = name
    · rw [hother, lookup_eq_none.mpr hnew, lookup_eq_none.mpr (hrest ▸ hnew)]
    · have hskip := hlookup other
      rwa [List.lookup_cons, List.lookup_cons, beq_eq_false_iff_ne.mpr hother] at hskip

theorem overlay_overlay {a b c : Option Json}
    (h : ∀ x y z, a = some x → b = some y → c = some z → (x.merge y).merge z =
      x.merge (y.merge z)) :
    overlay (overlay a b) c = overlay a (overlay b c) := by
  cases c with
  | none => rfl
  | some z =>
    cases b with
    | none => rfl
    | some y =>
      cases a with
      | none => rfl
      | some x => exact congrArg some (h x y z rfl rfl rfl)

theorem mergeMembers_mergeMembers {as bs cs : Members} (ha : Distinct as) (hb : Distinct bs)
    (hc : Distinct cs) (h : ∀ name x y z, as.lookup name = some x → bs.lookup name = some y →
      cs.lookup name = some z → (x.merge y).merge z = x.merge (y.merge z)) :
    mergeMembers (mergeMembers as bs) cs = mergeMembers as (mergeMembers bs cs) := by
  obtain ⟨habnames, hab⟩ := names_mergeMembers ha bs
  obtain ⟨hbcnames, hbc⟩ := names_mergeMembers hb cs
  obtain ⟨hleft, hdistinct⟩ := names_mergeMembers hab cs
  obtain ⟨hright, -⟩ := names_mergeMembers ha (mergeMembers bs cs)
  refine hdistinct.ext ?_ fun name => ?_
  · rw [hleft, hright, habnames, hbcnames, eraseDups_eraseDups_append, List.append_assoc,
      ← eraseDups_eraseDups_append _ (List.eraseDups _), eraseDups_append_eraseDups]
  · rw [lookup_mergeMembers hc, lookup_mergeMembers hb, lookup_mergeMembers hbc,
      lookup_mergeMembers hc]
    exact overlay_overlay (h name)

/-- Values of one kind are merged in any groups. -/
theorem Proper.merge_assoc {c : Json} (hc : c.Proper) : ∀ a b : Json, a.Proper → b.Proper →
    Alike a b c → (a.merge b).merge c = a.merge (b.merge c) := by
  induction hc with
  | @array cs hitems =>
    intro a b ha hb halike
    obtain ⟨hab, hbc⟩ := halike [] a b _ rfl rfl rfl
    cases hb with
    | @array bs hbitems =>
      cases ha with
      | array =>
        simp only [merge_arrays]
        rw [gain_gain bs (fun v hv => (hbitems v hv).same) fun v hv => (hitems v hv).same]
      | _ => cases hab
    | _ => cases hbc
  | @object cs hdistinct _ ih =>
    intro a b ha hb halike
    obtain ⟨hab, hbc⟩ := halike [] a b _ rfl rfl rfl
    cases hb with
    | @object bs hbdistinct hbmembers =>
      cases ha with
      | @object as hadistinct hamembers =>
        simp only [merge_objects]
        rw [mergeMembers_mergeMembers hadistinct hbdistinct hdistinct]
        intro name x y z hx hy hz
        exact ih _ (mem_of_lookup hz) x y (hamembers _ (mem_of_lookup hx))
          (hbmembers _ (mem_of_lookup hy)) (halike.member hx hy hz)
      | _ => cases hab
    | _ => cases hbc
  | _ => exact fun _ _ _ _ _ => by simp only [merge]

/-- Merging is idempotent, and associative on values that are of one kind wherever all of them have
something. -/
theorem merge_laws :
    (∀ t s : Json, s.Proper → (t.merge s).merge s = t.merge s) ∧
      ∀ a b c : Json, a.Proper → b.Proper → c.Proper → Alike a b c →
        (a.merge b).merge c = a.merge (b.merge c) :=
  ⟨fun t _ hs => hs.merge_again t, fun a b _ ha hb hc halike => hc.merge_assoc a b ha hb halike⟩

-- Three schemas that list required keys, one of them twice.
private def requiring (keys : List String) : Json :=
  .object [("required", .array (keys.map .string))]

private theorem requiring_proper (keys : List String) : (requiring keys).Proper := by
  refine .object (by simp [Distinct]) (List.forall_mem_singleton.mpr (.array fun item hitem => ?_))
  obtain ⟨key, -, rfl⟩ := List.mem_map.mp hitem
  exact .string key

private theorem requiring_alike (as bs cs : List String) :
    Alike (requiring as) (requiring bs) (requiring cs) := by
  rintro (_ | ⟨name, names⟩) x y z hx hy hz
  · cases hx
    cases hy
    cases hz
    exact ⟨rfl, rfl⟩
  · have hone : ∀ (keys : List String) (v : Json), Through (requiring keys) (name :: names) v →
        v = .array (keys.map .string) := by
      rintro keys v ⟨members, next, hmembers, hnext, hrest⟩
      cases hmembers
      by_cases hname : name = "required"
      · subst hname
        cases hnext
        cases names with
        | nil => exact hrest
        | cons => obtain ⟨_, _, hobject, -⟩ := hrest; cases hobject
      · rw [List.lookup_cons, beq_eq_false_iff_ne.mpr hname] at hnext
        cases hnext
    rw [hone as x hx, hone bs y hy, hone cs z hz]
    exact ⟨rfl, rfl⟩

theorem merge_laws_required :
    ((requiring ["a"]).merge (requiring ["b", "b"])).merge (requiring ["b", "b"]) =
        (requiring ["a"]).merge (requiring ["b", "b"]) ∧
      ((requiring ["a"]).merge (requiring ["b", "b"])).merge (requiring ["c", "a"]) =
        (requiring ["a"]).merge ((requiring ["b", "b"]).merge (requiring ["c", "a"])) :=
  ⟨merge_laws.1 _ _ (requiring_proper _), merge_laws.2 _ _ _ (requiring_proper _)
    (requiring_proper _)
    (requiring_proper _) (requiring_alike _ _ _)⟩

end Json

end SchemaBeans
