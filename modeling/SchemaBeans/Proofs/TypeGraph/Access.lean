import Mathlib.Data.List.Find
import SchemaBeans.TypeGraph

/-! # Reading a type graph after a change

Inserting a type or updating one leaves the others as they are. The head of a declaration is what it
says before anything is known about its members; no update touches it. -/
namespace SchemaBeans

/-- A declaration without its members and its place in a family. -/
def TypeDecl.head (d : TypeDecl) : TypeDecl where
  kind := d.kind
  package := d.package
  name := d.name
  enclosing := d.enclosing
  place := d.place
  title := d.title
  description := d.description

namespace TypeGraph

/-- The id was handed out. -/
def Has (g : TypeGraph) (id : TypeId) : Prop := id.index < g.size

instance (g : TypeGraph) (id : TypeId) : Decidable (g.Has id) := inferInstanceAs (Decidable (_ < _))

theorem mem_ids {g : TypeGraph} {id : TypeId} : id ∈ g.ids ↔ g.Has id := by
  rcases id with ⟨i⟩
  simp [ids, Has]

theorem has_of_size {g h : TypeGraph} (hsize : h.size = g.size) {id : TypeId} :
    h.Has id ↔ g.Has id := by
  unfold Has
  rw [hsize]

theorem ids_of_size {g h : TypeGraph} (hsize : h.size = g.size) : h.ids = g.ids := by
  unfold ids
  rw [hsize]

theorem get_of_not_has {g : TypeGraph} {id : TypeId} (h : ¬ g.Has id) : g.get id = {} := by
  unfold Has size at h
  simp [get, Array.getD_eq_getD_getElem?, Array.getElem?_eq_none (Nat.le_of_not_lt h)]

theorem ext_get {g h : TypeGraph} (hsize : h.size = g.size) (hplaces : h.places = g.places)
    (hget : ∀ type, g.Has type → h.get type = g.get type) : h = g := by
  obtain ⟨types, places⟩ := g
  obtain ⟨others, _⟩ := h
  cases hplaces
  refine congrArg (TypeGraph.mk · places) (Array.ext hsize fun i hi hi' => ?_)
  have hi := hget ⟨i⟩ hi'
  simpa [TypeGraph.get, Array.getD_eq_getD_getElem?, *] using hi

@[simp] theorem size_update (g : TypeGraph) (id : TypeId) (change : TypeDecl → TypeDecl) :
    (g.update id change).size = g.size := by
  simp [update, size]

@[simp] theorem has_update {g : TypeGraph} {id other : TypeId} {change : TypeDecl → TypeDecl} :
    (g.update id change).Has other ↔ g.Has other := by
  simp [Has]

theorem get_update_self {g : TypeGraph} {id : TypeId} (h : g.Has id)
    (change : TypeDecl → TypeDecl) : (g.update id change).get id = change (g.get id) := by
  unfold Has size at h
  simp only [get, update, Array.getD_eq_getD_getElem?, Array.getElem?_modify, if_true,
    Array.getElem?_eq_getElem h, Option.map_some, Option.getD_some]

theorem get_update_ne {g : TypeGraph} {id other : TypeId} (h : other ≠ id)
    (change : TypeDecl → TypeDecl) : (g.update id change).get other = g.get other := by
  have hne : id.index ≠ other.index := fun he => h (by cases id; cases other; simp_all)
  simp [get, update, Array.getD_eq_getD_getElem?, Array.getElem?_modify, hne]

theorem update_unchanged (g : TypeGraph) (id : TypeId) : g.update id (fun decl => decl) = g := by
  unfold update
  congr
  refine Array.ext (by simp) fun i _ _ => ?_
  simp [Array.getElem_modify]

/-- What an update does not touch is read as before. -/
theorem get_update_congr {α : Type} (g : TypeGraph) (id other : TypeId)
    {change : TypeDecl → TypeDecl} (part : TypeDecl → α) (h : ∀ d, part (change d) = part d) :
    part ((g.update id change).get other) = part (g.get other) := by
  by_cases he : other = id
  · subst he
    by_cases hid : g.Has other
    · rw [get_update_self hid, h]
    · rw [get_of_not_has hid, get_of_not_has (by simpa using hid)]
  · rw [get_update_ne he]

@[simp] theorem size_insert (g : TypeGraph) (decl : TypeDecl) :
    (g.insert decl).2.size = g.size + 1 := by
  unfold insert
  split <;> simp [size, update]

theorem has_insert {g : TypeGraph} {decl : TypeDecl} {id : TypeId} :
    (g.insert decl).2.Has id ↔ g.Has id ∨ id = ⟨g.size⟩ := by
  rcases id with ⟨i⟩
  simp only [Has, size_insert, TypeId.mk.injEq]
  omega

theorem get_push_of_has {g : TypeGraph} {id : TypeId} (h : g.Has id) (decl : TypeDecl)
    (places : List (Location × TypeId)) :
    (TypeGraph.mk (g.types.push decl) places).get id = g.get id := by
  unfold Has size at h
  simp only [get, Array.getD_eq_getD_getElem?, Array.getElem?_push_lt h,
    Array.getElem?_eq_getElem h]

theorem get_insert_self (g : TypeGraph) (decl : TypeDecl) :
    (g.insert decl).2.get ⟨g.size⟩ = decl := by
  have hlast : ∀ (types : Array TypeDecl) (places : List (Location × TypeId)), types.size = g.size →
      (TypeGraph.mk (types.push decl) places).get ⟨g.size⟩ = decl := by
    intro types places hsize
    simp [get, ← hsize, Array.getD_eq_getD_getElem?]
  unfold insert
  split
  · exact hlast _ _ (size_update g _ _)
  · exact hlast _ _ rfl

/-- A new type is put at the end of the list of the type it stands in. -/
theorem nested_insert_of_has {g : TypeGraph} {id : TypeId} (h : g.Has id) (decl : TypeDecl) :
    (g.insert decl).2.nested id =
      g.nested id ++ if decl.enclosing = some id then [⟨g.size⟩] else [] := by
  unfold insert nested
  cases howner : decl.enclosing with
  | none =>
    dsimp only
    rw [get_push_of_has h, if_neg nofun, List.append_nil]
  | some owner =>
    dsimp only
    rw [get_push_of_has (has_update.mpr h)]
    by_cases hid : id = owner
    · subst hid
      rw [get_update_self h, if_pos rfl]
    · rw [get_update_ne hid, if_neg fun he => hid (Option.some.inj he).symm, List.append_nil]

/-- Nothing else of an old type changes. -/
theorem get_insert_of_has {g : TypeGraph} {id : TypeId} (h : g.Has id) (decl : TypeDecl) :
    (g.insert decl).2.get id =
      { g.get id with nested := (g.insert decl).2.nested id } := by
  unfold nested insert
  cases howner : decl.enclosing with
  | none =>
    dsimp only
    rw [get_push_of_has h]
  | some owner =>
    dsimp only
    rw [get_push_of_has (has_update.mpr h)]
    by_cases hid : id = owner
    · subst hid
      rw [get_update_self h]
    · rw [get_update_ne hid]

/-- Every type of the first graph is in the second one, with its head. The index has an entry more
for every other type, and if there is none, the lists of nested types are the same. -/
structure Keeps (g h : TypeGraph) : Prop where
  heads : ∀ id, g.Has id → h.Has id ∧ (h.get id).head = (g.get id).head
  indexed : ∃ added, h.places = added ++ g.places ∧ h.size = g.size + added.length
  nested : h.size = g.size → ∀ id, h.nested id = g.nested id

theorem Keeps.refl (g : TypeGraph) : Keeps g g :=
  ⟨fun _ h => ⟨h, rfl⟩, ⟨[], rfl, rfl⟩, fun _ _ => rfl⟩

theorem keeps_update (g : TypeGraph) (id : TypeId) {change : TypeDecl → TypeDecl}
    (hc : ∀ d, (change d).head = d.head) (hn : ∀ d, (change d).nested = d.nested) :
    Keeps g (g.update id change) where
  heads other ho := ⟨by simpa using ho, get_update_congr g id other TypeDecl.head hc⟩
  indexed := ⟨[], rfl, size_update g id change⟩
  nested _ other := get_update_congr g id other TypeDecl.nested hn

theorem keeps_insert (g : TypeGraph) (decl : TypeDecl) : Keeps g (g.insert decl).2 where
  heads _ h := ⟨has_insert.mpr (Or.inl h), by rw [get_insert_of_has h]; rfl⟩
  indexed := ⟨[(decl.place, ⟨g.size⟩)], rfl, size_insert g decl⟩
  nested hsize := absurd hsize (by simp)

section Heads

variable {g h : TypeGraph} {id : TypeId}

theorem Keeps.has (hk : Keeps g h) (hid : g.Has id) : h.Has id := (hk.heads id hid).1

theorem Keeps.size_le (hk : Keeps g h) : g.size ≤ h.size := by
  obtain ⟨_, _, hsize⟩ := hk.indexed
  omega

theorem Keeps.places (hk : Keeps g h) (hsize : h.size = g.size) : h.places = g.places := by
  obtain ⟨added, hplaces, hadded⟩ := hk.indexed
  obtain rfl := List.eq_nil_of_length_eq_zero (show added.length = 0 by omega)
  exact hplaces

theorem Keeps.trans {f : TypeGraph} (hf : Keeps f g) (hg : Keeps g h) : Keeps f h where
  heads id hid := ⟨hg.has (hf.has hid), ((hg.heads id (hf.has hid)).2).trans (hf.heads id hid).2⟩
  indexed := by
    obtain ⟨first, hfirst, hfsize⟩ := hf.indexed
    obtain ⟨second, hsecond, hgsize⟩ := hg.indexed
    refine ⟨second ++ first, by rw [hsecond, hfirst, List.append_assoc], ?_⟩
    rw [hgsize, hfsize, List.length_append]
    omega
  nested hsize id := by
    have hmid : g.size = f.size := Nat.le_antisymm (hsize ▸ hg.size_le) hf.size_le
    exact (hg.nested (hsize.trans hmid.symm) id).trans (hf.nested hmid id)

/-- What a head says of a type stays true. -/
theorem Keeps.part {α : Type} (hk : Keeps g h) (hid : g.Has id) {part : TypeDecl → α}
    (hpart : ∀ d, part d.head = part d) : part (h.get id) = part (g.get id) := by
  rw [← hpart, (hk.heads id hid).2, hpart]

theorem Keeps.part_eq {α : Type} (hk : Keeps g h) (hsize : h.size = g.size) (id : TypeId)
    {part : TypeDecl → α} (hpart : ∀ d, part d.head = part d) :
    part (h.get id) = part (g.get id) := by
  by_cases hid : g.Has id
  · exact hk.part hid hpart
  · rw [get_of_not_has hid, get_of_not_has fun hin => hid ((has_of_size hsize).mp hin)]

theorem Keeps.kind (hk : Keeps g h) (hid : g.Has id) : (h.get id).kind = (g.get id).kind :=
  hk.part hid fun _ => rfl

theorem Keeps.package (hk : Keeps g h) (hid : g.Has id) : (h.get id).package = (g.get id).package :=
  hk.part hid fun _ => rfl

theorem Keeps.name (hk : Keeps g h) (hid : g.Has id) : (h.get id).name = (g.get id).name :=
  hk.part hid fun _ => rfl

theorem Keeps.enclosing (hk : Keeps g h) (hid : g.Has id) :
    (h.get id).enclosing = (g.get id).enclosing := hk.part hid fun _ => rfl

theorem Keeps.place (hk : Keeps g h) (hid : g.Has id) : (h.get id).place = (g.get id).place :=
  hk.part hid fun _ => rfl

end Heads

theorem typeAt?_insert (g : TypeGraph) (decl : TypeDecl) (place : Location) :
    (g.insert decl).2.typeAt? place =
      if decl.place = place then some ⟨g.size⟩ else g.typeAt? place := by
  unfold typeAt? insert
  dsimp only
  rw [List.lookup_cons]
  by_cases h : place = decl.place
  · simp [h]
  · simp [beq_eq_false_iff_ne.mpr h, Ne.symm h]

/-- Without a new type, every place keeps the type it has. -/
theorem Keeps.typeAt? {g h : TypeGraph} (hk : Keeps g h) (hsize : h.size = g.size)
    (place : Location) : h.typeAt? place = g.typeAt? place := by
  rw [TypeGraph.typeAt?, hk.places hsize]
  rfl

theorem Keeps.isSome_typeAt? {g h : TypeGraph} (hk : Keeps g h) {place : Location}
    (htype : (g.typeAt? place).isSome) : (h.typeAt? place).isSome := by
  obtain ⟨added, hplaces, -⟩ := hk.indexed
  rw [TypeGraph.typeAt?, hplaces, List.lookup_append, Option.isSome_or]
  exact Bool.or_eq_true_iff.mpr (.inr htype)

/-- The index leads to the type of each place, and no two types have one place. -/
def Placed (g : TypeGraph) : Prop :=
  ∀ place id, g.typeAt? place = some id ↔ g.Has id ∧ (g.get id).place = place

section Places

variable {g h : TypeGraph} {place : Location} {id : TypeId}

theorem Placed.typeAt? (hg : g.Placed) (hid : g.Has id) :
    g.typeAt? (g.get id).place = some id := (hg _ _).mpr ⟨hid, rfl⟩

theorem typeAt?_some (hg : g.Placed) (h : g.typeAt? place = some id) :
    g.Has id ∧ (g.get id).place = place := (hg _ _).mp h

theorem typeAt?_eq_none (hg : g.Placed) :
    g.typeAt? place = none ↔ ∀ id, g.Has id → (g.get id).place ≠ place := by
  constructor
  · rintro hnone id hid rfl
    cases hnone.symm.trans (hg.typeAt? hid)
  · intro hfree
    by_contra hsome
    obtain ⟨id, hid⟩ := Option.ne_none_iff_exists'.mp hsome
    exact hfree id (typeAt?_some hg hid).1 (typeAt?_some hg hid).2

theorem Placed.unique (hg : g.Placed) {a b : TypeId} (ha : g.Has a) (hb : g.Has b)
    (hab : (g.get a).place = (g.get b).place) : a = b :=
  Option.some.inj ((hg.typeAt? ha).symm.trans (hab ▸ hg.typeAt? hb))

theorem Placed.insert (hg : g.Placed) {decl : TypeDecl} (h : g.typeAt? decl.place = none) :
    (g.insert decl).2.Placed := by
  intro place id
  rw [typeAt?_insert]
  split
  · rename_i hplace
    subst hplace
    constructor
    · rintro ⟨⟩
      exact ⟨has_insert.mpr (.inr rfl), by rw [get_insert_self]⟩
    · rintro ⟨hid, hsame⟩
      rcases has_insert.mp hid with hold | rfl
      · rw [get_insert_of_has hold] at hsame
        exact absurd hsame ((typeAt?_eq_none hg).mp h id hold)
      · rfl
  · rename_i hplace
    rw [hg place id]
    constructor
    · rintro ⟨hid, hsame⟩
      exact ⟨has_insert.mpr (.inl hid), by rw [get_insert_of_has hid]; exact hsame⟩
    · rintro ⟨hid, hsame⟩
      rcases has_insert.mp hid with hold | rfl
      · rw [get_insert_of_has hold] at hsame
        exact ⟨hold, hsame⟩
      · rw [get_insert_self] at hsame
        exact absurd hsame hplace

theorem Placed.keeps (hg : g.Placed) (hk : Keeps g h) (hsize : h.size = g.size) : h.Placed := by
  intro place id
  rw [hk.typeAt? hsize, hg place id]
  rw [has_of_size hsize, and_congr_right_iff]
  intro hid
  rw [hk.place hid]

end Places

end TypeGraph

end SchemaBeans
