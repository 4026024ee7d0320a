import SchemaBeans.Proofs.Json.Merging

/-! # Keys of merged values

What a merged value has under a key of its `properties` is put together from what the parts have
there. Under a name in it stands the last scalar that any of them has under this name. -/
namespace SchemaBeans.Json

variable {Part : Json → Prop} {v w x : Json} {parts others all : List Json} {key name : String}

def declared (key : String) (v : Json) : Option Json :=
  (v.member? "properties").bind (·.member? key)

def declarations (key : String) (parts : List Json) : List Json := parts.filterMap (declared key)

theorem Tabular.mem_propertyKeys (h : v.Tabular) :
    key ∈ v.propertyKeys ↔ ∃ x, v.declared key = some x := by
  unfold propertyKeys declared
  cases hlisted : v.member? "properties" with
  | none => simp [keysOf]
  | some properties =>
    obtain ⟨listed, rfl, -⟩ := h.properties properties hlisted
    have hkey : (listed.lookup key).isSome = true ↔ ∃ entry ∈ listed, entry.1 = key := by
      rw [List.lookup_isSome_iff]
      exact exists_congr fun entry => and_congr_right fun _ => beq_iff_eq.trans eq_comm
    rw [Option.bind_some, member?, ← Option.isSome_iff_exists, hkey, keysOf, List.mem_map]

theorem Tabular.descend?_property (h : v.Tabular) :
    v.descend? ["properties", key] = v.declared key := by
  obtain ⟨members, rfl, -⟩ := h.once
  unfold declared
  simp only [descend?, List.foldlM_cons, List.foldlM_nil, step?, member?]
  cases hlisted : members.lookup "properties" with
  | none => rfl
  | some properties =>
    obtain ⟨listed, rfl, -⟩ := h.properties properties hlisted
    cases hkey : listed.lookup key <;> simp [hkey]

/-- The property is there if any of these schemas is, and it is put together from them. -/
structure Composed (found : Option Json) (all : List Json) : Prop where
  assembled : ∀ x, found = some x → Assembled Inline x all
  missing : found = none → all = []

theorem composed_nothing : Composed none [] where
  assembled _ h := by cases h
  missing _ := rfl

theorem Composed.overlaid {old given : Option Json} (hold : Composed old parts)
    (hgiven : Composed given others) : Composed (overlay old given) (parts ++ others) := by
  cases given with
  | none =>
    rw [hgiven.missing rfl, List.append_nil]
    exact hold
  | some y =>
    have hy := hgiven.assembled y rfl
    cases old with
    | none =>
      rw [hold.missing rfl, List.nil_append]
      exact hgiven
    | some x =>
      refine ⟨fun z hz => ?_, fun hnone => by cases hnone⟩
      obtain rfl := Option.some.inj hz
      exact (hold.assembled x rfl).merge hy

theorem Composed.anchored {base : String} {target : Option String} {listed copied : Members}
    (h : Composed (listed.lookup key) all) (htarget : target? base listed = .ok target)
    (hcopied : anchorMembers base target listed = .ok copied) : Composed
    (copied.lookup key) all := by
  rcases anchorMembers_lookup hcopied key with ⟨hx, hy⟩ | ⟨x, y, hx, hy, hanchored⟩
  · rw [hy, ← hx]
    exact h
  · have hassembled := h.assembled x hx
    rw [hy]
    refine ⟨fun z hz => ?_, fun hnone => by cases hnone⟩
    obtain rfl := Option.some.inj hz
    cases hanchored with
    | data => exact hassembled
    | value _ _ hanchor => exact hassembled.anchored hanchor
    | reference _ hname hsome =>
      -- Under `$ref` stands an object here, so the properties are no reference.
      subst hname
      obtain ⟨members, rfl, -⟩ := (hassembled.inline fun _ h => h).once
      rw [target?_of_value hx fun _ h => by cases h] at htarget
      rw [← Except.ok.inj htarget] at hsome
      cases hsome

theorem declared_merge (hv : v.Tabulates parts) (hw : w.Tabulates others) :
    (v.merge w).declared key = overlay (v.declared key) (w.declared key) := by
  obtain ⟨members, rfl, -⟩ := hv.once
  obtain ⟨source, rfl, hsource⟩ := hw.once
  rw [merge_objects]
  unfold declared member?
  simp only [lookup_mergeMembers hsource]
  cases hgiven : source.lookup "properties" with
  | none => rfl
  | some given =>
    obtain ⟨more, rfl, hmore⟩ := hw.properties given hgiven
    cases hold : members.lookup "properties" with
    | none => cases hkey : more.lookup key <;> simp [overlay, hkey]
    | some old =>
      obtain ⟨listed, rfl, -⟩ := hv.properties old hold
      simp only [overlay, merge_objects, Option.bind_some, lookup_mergeMembers hmore]

/-- What a value has for a property is put together from what the parts have for it. -/
theorem Assembled.declared (h : Assembled (Stated Tabular) v parts)
    (hinline : ∀ x ∈ declarations key parts, x.Inline) :
    Composed (v.declared key) (declarations key parts) := by
  induction h with
  | nothing => exact composed_nothing
  | @whole v h =>
    unfold declarations at hinline ⊢
    cases hv : v.declared key with
    | none =>
      rw [List.filterMap_cons_none hv]
      exact composed_nothing
    | some x =>
      rw [List.filterMap_cons_some hv] at hinline ⊢
      refine ⟨fun y hy => ?_, fun hnone => by cases hnone⟩
      rw [← Option.some.inj hy]
      exact .whole (hinline x List.mem_cons_self)
  | anchored h hw ih =>
    have htabulates := h.tabulates
    obtain ⟨-, members, out, rfl, rfl, hout⟩ := htabulates.toInline.anchored hw
    have hcomposed := ih hinline
    rcases @anchored_lookup _ "properties" _ _ (by decide) (by decide) hout with
      ⟨hx, hy⟩ | ⟨x, y, hx, hy, hanchor⟩
    · have hsame : (object out).declared key = (object members).declared key := by
        unfold Json.declared member?
        simp only [hx, hy]
      rw [hsame]
      exact hcomposed
    · obtain ⟨listed, rfl, -⟩ := htabulates.properties x hx
      obtain ⟨target, copied, htarget, hcopied, rfl⟩ := anchor_object hanchor
      have hold : (object members).declared key = listed.lookup key := by
        unfold Json.declared member?
        simp only [hx, Option.bind_some]
      have hnew : (object out).declared key = copied.lookup key := by
        unfold Json.declared member?
        simp only [hy, Option.bind_some]
      rw [hold] at hcomposed
      rw [hnew]
      exact hcomposed.anchored htarget hcopied
  | @without members parts name h hname ih =>
    have hne : "properties" ≠ name := by
      rintro rfl
      exact absurd hname (by decide)
    have hsame : (object (members.remove name)).declared key = (object members).declared key := by
      unfold Json.declared member?
      simp only [h.tabulates.toInline.distinct.lookup_remove hne]
    rw [hsame]
    exact ih hinline
  | @extending members parts h v ih =>
    have hsame : (object (members.put "extends" v)).declared key =
        (object members).declared key := by
      unfold Json.declared member?
      simp only [lookup_put, if_neg (show "properties" ≠ "extends" by decide)]
    rw [hsame]
    exact ih hinline
  | merge hv hw ihv ihw =>
    unfold declarations at hinline ihv ihw ⊢
    rw [List.filterMap_append] at hinline ⊢
    obtain ⟨hfirst, hsecond⟩ := List.forall_mem_append.mp hinline
    rw [declared_merge hv.tabulates hw.tabulates]
    exact (ihv hfirst).overlaid (ihw hsecond)

def lastUnder (name : String) (all : List Json) : Option Json :=
  (all.filterMap (·.member? name)).getLast?

/-- If one of the two is a scalar, the other one is the same. -/
structure SameScalar (a b : Option Json) : Prop where
  missing : a = none ↔ b = none
  scalar : ∀ s : Json, s.isScalar = true → (a = some s ↔ b = some s)

theorem SameScalar.refl (a : Option Json) : SameScalar a a := ⟨Iff.rfl, fun _ _ => Iff.rfl⟩

theorem SameScalar.trans {a b c : Option Json} (h : SameScalar a b) (k : SameScalar b c) :
    SameScalar a c :=
  ⟨h.missing.trans k.missing, fun s hs => (h.scalar s hs).trans (k.scalar s hs)⟩

theorem SameScalar.overlaid {a b c d : Option Json} (h : SameScalar a b) (k : SameScalar c d) :
    SameScalar (overlay a c) (d.or b) := by
  refine ⟨?_, fun s hs => ?_⟩
  · have hmissing : overlay a c = none ↔ a = none ∧ c = none := by
      cases c <;> simp [overlay]
    rw [hmissing, Option.or_eq_none_iff, h.missing, k.missing, and_comm]
  · rw [overlay_scalar hs, Option.or_eq_some_iff, k.scalar s hs, k.missing, h.scalar s hs]

theorem anchorMembers_sameScalar {base : String} {members out : Members} (hname : name ≠ "$ref")
    (hout : anchorMembers base none members = .ok out) :
    SameScalar (out.lookup name) (members.lookup name) := by
  rcases anchorMembers_lookup hout name with ⟨hx, hy⟩ | ⟨x, y, hx, hy, hanchored⟩
  · rw [hx, hy]
    exact .refl none
  · rw [hx, hy]
    cases hanchored with
    | data => exact .refl _
    | reference _ href => exact absurd href hname
    | value _ _ hanchor =>
      refine ⟨by simp, fun s hs => ?_⟩
      rw [Option.some.injEq, Option.some.injEq]
      exact anchor_scalar hs hanchor

theorem Assembled.sameScalar (h : Assembled Inline v all)
    (hname : name ∉ ["$ref", "extends", "allOf", "discriminator", "deserializationClassProperty"]) :
    SameScalar (v.member? name) (lastUnder name all) := by
  induction h with
  | nothing => exact .refl none
  | @whole v h =>
    have hlast : lastUnder name [v] = v.member? name := by
      cases hv : v.member? name <;> simp [lastUnder, hv]
    rw [hlast]
    exact .refl _
  | anchored h hw ih =>
    obtain ⟨-, members, out, rfl, rfl, hout⟩ := (h.inline fun _ h => h).anchored hw
    have hne : name ≠ "$ref" := fun heq => hname (heq ▸ List.mem_cons_self)
    exact (anchorMembers_sameScalar hne hout).trans ih
  | @without members all other h hother ih =>
    have hne : name ≠ other := by
      rintro rfl
      exact hname (List.mem_cons_of_mem _ (List.mem_cons_of_mem _ hother))
    have hsame : (object (members.remove other)).member? name = (object members).member? name :=
      (h.inline fun _ h => h).distinct.lookup_remove hne
    rw [hsame]
    exact ih
  | @extending members all h v ih =>
    have hne : name ≠ "extends" := by
      rintro rfl
      exact hname (by decide)
    have hsame : (object (members.put "extends" v)).member? name =
        (object members).member? name := by
      rw [member?, lookup_put, if_neg hne]
      rfl
    rw [hsame]
    exact ih
  | merge hv hw ihv ihw =>
    obtain ⟨members, rfl, -⟩ := (hv.inline fun _ h => h).once
    obtain ⟨source, rfl, hsource⟩ := (hw.inline fun _ h => h).once
    unfold lastUnder at ihv ihw ⊢
    rw [List.filterMap_append, List.getLast?_append, merge_objects, member?,
      lookup_mergeMembers hsource]
    exact ihv.overlaid ihw

end SchemaBeans.Json
