import SchemaBeans.Proofs.Generation.Consistency

/-! # What a family does to a graph

Which types a family binds, under which tags, and what this makes of every type can be told from the
graph before. Binding succeeds exactly if the tags differ and every child can be placed below the
parent, and then it changes every type as foretold. -/
namespace SchemaBeans

namespace TypeGraph

variable {g : TypeGraph} {id : TypeId}

/-- The graph with every type changed in its own way. -/
def mapIds (g : TypeGraph) (change : TypeId → TypeDecl → TypeDecl) : TypeGraph :=
  { g with types := g.types.mapIdx fun i d => change ⟨i⟩ d }

@[simp] theorem size_mapIds (g : TypeGraph) (change : TypeId → TypeDecl → TypeDecl) :
    (g.mapIds change).size = g.size := by
  simp [mapIds, size]

@[simp] theorem has_mapIds {change : TypeId → TypeDecl → TypeDecl} :
    (g.mapIds change).Has id ↔ g.Has id := by
  simp [Has]

theorem get_mapIds (hid : g.Has id) (change : TypeId → TypeDecl → TypeDecl) :
    (g.mapIds change).get id = change id (g.get id) := by
  unfold Has size at hid
  simp [get, mapIds, Array.getD_eq_getD_getElem?, hid]

theorem mapIds_congr {change other : TypeId → TypeDecl → TypeDecl}
    (h : ∀ id, g.Has id → change id (g.get id) = other id (g.get id)) :
    g.mapIds change = g.mapIds other := by
  refine ext_get (by simp) rfl fun id hid => ?_
  have hid : g.Has id := has_mapIds.mp hid
  rw [get_mapIds hid, get_mapIds hid, h id hid]

theorem mapIds_mapIds (change after : TypeId → TypeDecl → TypeDecl) :
    (g.mapIds change).mapIds after = g.mapIds fun id d => after id (change id d) := by
  refine ext_get (by simp) rfl fun id hid => ?_
  have hid : g.Has id := has_mapIds.mp hid
  rw [get_mapIds (has_mapIds.mpr hid), get_mapIds hid, get_mapIds hid]

theorem mapIds_unchanged (g : TypeGraph) : g.mapIds (fun _ d => d) = g := by
  refine ext_get (by simp) rfl fun id hid => ?_
  rw [get_mapIds hid]

theorem update_eq_mapIds (g : TypeGraph) (id : TypeId) (change : TypeDecl → TypeDecl) :
    g.update id change = g.mapIds fun other d => if other = id then change d else d := by
  refine ext_get (by simp) rfl fun other hother => ?_
  have hhas : g.Has other := has_mapIds.mp hother
  rw [get_mapIds hhas]
  by_cases h : other = id
  · subst h
    rw [get_update_self hhas, if_pos rfl]
  · rw [get_update_ne h, if_neg h]

theorem update_update {other : TypeId} (hne : id ≠ other) (change after : TypeDecl → TypeDecl) :
    (g.update id change).update other after = g.mapIds fun any d =>
      if any = other then after d else if any = id then change d else d := by
  rw [update_eq_mapIds, update_eq_mapIds, mapIds_mapIds]
  refine mapIds_congr fun any _ => ?_
  by_cases hother : any = other
  · simp [hother, Ne.symm hne]
  · simp [hother]

theorem keeps_mapIds {change : TypeId → TypeDecl → TypeDecl}
    (h : ∀ id d, (change id d).head = d.head) (hn : ∀ id d, (change id d).nested = d.nested) :
    g.Keeps (g.mapIds change) where
  heads id hid := ⟨has_mapIds.mpr hid, by rw [get_mapIds hid, h]⟩
  indexed := ⟨[], rfl, size_mapIds g change⟩
  nested _ id := by
    by_cases hid : g.Has id
    · rw [nested, get_mapIds hid, hn]
      rfl
    · rw [nested, nested, get_of_not_has hid, get_of_not_has fun h => hid (has_mapIds.mp h)]

end TypeGraph

namespace Family

open Drafting (mem_addOnce)

variable {family : Family} {g h : TypeGraph} {parent child id : TypeId} {kind : TypeKind}

/-- The type can be placed below the parent: nothing hinders it below an interface, and below a
class it must be no enum and extend nothing else. -/
def Admits (g : TypeGraph) (parent child : TypeId) : Prop :=
  (g.get parent).kind = .interface ∨
    (g.get parent).kind = .bean ∧ (g.get child).kind ≠ .enum ∧
      ((g.get child).supertype = none ∨ (g.get child).supertype = some (.generated parent))

/-- What becomes of a type once the children are placed below a parent of the given kind. -/
def placed (kind : TypeKind) (parent : TypeId) (kids : List TypeId) (id : TypeId) (d : TypeDecl) :
    TypeDecl :=
  { d with
    supertype := if kind = .bean ∧ id ∈ kids then some (.generated parent) else d.supertype
    interfaces :=
      if kind = .interface ∧ id ∈ kids then addOnce parent d.interfaces else d.interfaces
    subtypes := if id = parent then kids.foldl (fun known kid => addOnce kid known) d.subtypes
      else d.subtypes }

theorem addOnce_addOnce (id : TypeId) (ids : List TypeId) :
    addOnce id (addOnce id ids) = addOnce id ids := by
  have hmem : (addOnce id ids).contains id = true := by
    rw [List.contains_iff_mem, mem_addOnce]
    exact .inl rfl
  rw [addOnce, if_pos hmem]

theorem mem_foldl_addOnce {id : TypeId} : ∀ {kids known : List TypeId},
    id ∈ kids.foldl (fun known kid => addOnce kid known) known ↔ id ∈ known ∨ id ∈ kids := by
  intro kids
  induction kids with
  | nil => simp
  | cons kid rest ih =>
    intro known
    rw [List.foldl_cons, ih, mem_addOnce, List.mem_cons]
    tauto

theorem placed_nil (d : TypeDecl) : placed kind parent [] id d = d := by
  simp [placed]

theorem placed_cons (kid : TypeId) (kids : List TypeId) (d : TypeDecl) :
    placed kind parent (kid :: kids) id d =
      placed kind parent kids id (placed kind parent [kid] id d) := by
  have hsuper :
    (if kind = .bean ∧ id ∈ kid :: kids then some (.generated parent) else d.supertype) =
      if kind = .bean ∧ id ∈ kids then some (.generated parent)
      else if kind = .bean ∧ id ∈ [kid] then some (.generated parent) else d.supertype := by
    by_cases hbean : kind = .bean <;> by_cases hmem : id ∈ kids <;> simp [hbean, hmem]
  have hinterfaces : (if kind = .interface ∧ id ∈ kid :: kids then addOnce parent d.interfaces
      else d.interfaces) = if kind = .interface ∧ id ∈ kids then addOnce parent
        (if kind = .interface ∧ id ∈ [kid] then addOnce parent d.interfaces else d.interfaces)
      else if kind = .interface ∧ id ∈ [kid] then addOnce parent d.interfaces
        else d.interfaces := by
    by_cases hinterface : kind = .interface <;> by_cases hmem : id ∈ kids <;>
      by_cases hid : id = kid <;> simp [hinterface, hmem, hid, addOnce_addOnce]
  have hsubtypes : (if id = parent then (kid :: kids).foldl (fun known kid => addOnce kid known)
      d.subtypes else d.subtypes) =
      if id = parent then kids.foldl (fun known kid => addOnce kid known)
        (if id = parent then [kid].foldl (fun known kid => addOnce kid known) d.subtypes
          else d.subtypes)
      else if id = parent then [kid].foldl (fun known kid => addOnce kid known) d.subtypes
        else d.subtypes := by
    by_cases hid : id = parent <;> simp [hid]
  rw [placed, hsuper, hinterfaces, hsubtypes]
  rfl

theorem keeps_placed (g : TypeGraph) (kids : List TypeId) :
    g.Keeps (g.mapIds (placed kind parent kids)) :=
  TypeGraph.keeps_mapIds (fun _ _ => rfl) fun _ _ => rfl

theorem placed_parent (hne : child ≠ parent) (d : TypeDecl) :
    placed kind parent [child] parent d = { d with subtypes := addOnce child d.subtypes } := by
  simp [placed, Ne.symm hne]

theorem placed_other (hchild : id ≠ child) (hparent : id ≠ parent) (d : TypeDecl) :
    placed kind parent [child] id d = d := by
  simp [placed, hchild, hparent]

theorem placed_interface (hne : child ≠ parent) (d : TypeDecl) :
    placed .interface parent [child] child d =
      { d with interfaces := addOnce parent d.interfaces } := by
  simp [placed, hne]

theorem placed_bean (hne : child ≠ parent) (d : TypeDecl) :
    placed .bean parent [child] child d = { d with supertype := some (.generated parent) } := by
  simp [placed, hne]

theorem update_eq_placed (hne : child ≠ parent) (change : TypeDecl → TypeDecl)
    (hchange : change (g.get child) = placed kind parent [child] child (g.get child)) :
    (g.update child change).update parent
    (fun d => { d with subtypes := addOnce child d.subtypes }) =
      g.mapIds (placed kind parent [child]) := by
  rw [TypeGraph.update_update hne]
  refine TypeGraph.mapIds_congr fun id _ => ?_
  by_cases hparent : id = parent
  · rw [if_pos hparent, hparent, placed_parent hne]
  · rw [if_neg hparent]
    by_cases hchild : id = child
    · rw [if_pos hchild, hchild, hchange]
    · rw [if_neg hchild, placed_other hchild hparent]

theorem link_iff (hne : child ≠ parent) :
    link g parent child = .ok h ↔
      Admits g parent child ∧ h = g.mapIds (placed (g.get parent).kind parent [child]) := by
  unfold link Admits
  cases hkind : (g.get parent).kind with
  | interface =>
    have hplaced := update_eq_placed hne
      (fun d => { d with interfaces := addOnce parent d.interfaces })
      (placed_interface hne (g.get child)).symm
    simp [hplaced, Pure.pure, Except.pure, Bind.bind, Except.bind, eq_comm]
  | bean =>
    by_cases henum : (g.get child).kind = .enum
    · simp [henum, Bind.bind, Except.bind, throw, throwThe, MonadExceptOf.throw]
    · cases hsuper : (g.get child).supertype with
      | none =>
        have hplaced := update_eq_placed hne
          (fun d => { d with supertype := some (.generated parent) })
          (placed_bean hne (g.get child)).symm
        simp [henum, hsuper, hplaced, Pure.pure, Except.pure, Bind.bind, Except.bind, eq_comm]
      | some supertype =>
        by_cases hsame : supertype = .generated parent
        · have hplaced := update_eq_placed hne (fun d => d)
            ((placed_bean hne (g.get child)).trans (by rw [← hsame, ← hsuper])).symm
          rw [TypeGraph.update_unchanged] at hplaced
          simp [henum, hsuper, hsame, hplaced, Pure.pure, Except.pure, Bind.bind,
            Except.bind, eq_comm]
        · simp [henum, hsuper, hsame, Bind.bind, Except.bind, throw, throwThe, MonadExceptOf.throw]
  | enum =>
    by_cases henum : (g.get child).kind = .enum <;>
      simp [henum, Bind.bind, Except.bind, throw, throwThe, MonadExceptOf.throw]

theorem forall₂_declared {g : TypeGraph} : ∀ {entries : List (ChildType × Option String)}
    {declared : List (TypeId × Option String)},
    (entries.mapM fun (child, tag) => do pure (← declaredChild g child, tag)) = .ok declared →
    List.Forall₂ (fun entry child => declaredChild g entry.1 = .ok child.1 ∧ child.2 = entry.2)
      entries declared := by
  intro entries
  induction entries with
  | nil =>
    intro declared h
    cases h
    exact .nil
  | cons entry rest ih =>
    intro declared h
    rw [List.mapM_cons] at h
    obtain ⟨first, hfirst, h⟩ := ok_of_bind h
    obtain ⟨child, hchild, hpure⟩ := ok_of_bind hfirst
    cases hpure
    obtain ⟨others, hothers, h⟩ := ok_of_bind h
    cases h
    exact .cons ⟨hchild, rfl⟩ (ih hothers)

theorem mem_declared {g : TypeGraph} {entries : List (ChildType × Option String)}
    {declared : List (TypeId × Option String)}
    (hall : List.Forall₂ (fun entry child => declaredChild g entry.1 = .ok child.1 ∧
      child.2 = entry.2) entries declared) (id : TypeId) :
    id ∈ declared.map (·.1) ↔ ∃ entry ∈ entries, declaredChild g entry.1 = .ok id := by
  induction hall with
  | nil => simp
  | cons hfirst _ ih =>
    rw [List.map_cons, List.mem_cons, List.exists_mem_cons_iff, hfirst.1, Except.ok.injEq]
    exact or_congr eq_comm ih

/-- The children that a family stands for, with the tags it declares: its declared children in
order, or without any the subtypes that its parent has, followed by the other types that extend
it. -/
inductive Covers (g : TypeGraph) (family : Family) : List (TypeId × Option String) → Prop
  | declared {listed : List (TypeId × Option String)} (hsome : family.children ≠ [])
      (hall : List.Forall₂ (fun entry child => declaredChild g entry.1 = .ok child.1 ∧
        child.2 = entry.2) family.children listed) : Covers g family listed
  | implicit (hnone : family.children = []) :
      Covers g family (((g.get family.parent).subtypes ++ g.ids.filter fun id =>
        decide (g.Extends id family.parent ∧ id ∉ (g.get family.parent).subtypes)).map (·, none))

theorem implicitChildren_eq (g : TypeGraph) (parent : TypeId) :
    implicitChildren g parent = (g.get parent).subtypes ++ g.ids.filter fun id =>
      decide (g.Extends id parent ∧ id ∉ (g.get parent).subtypes) := by
  unfold implicitChildren
  simp only
  congr 1
  refine List.filter_congr fun id _ => ?_
  rw [Bool.eq_iff_iff]
  simp [TypeGraph.extends_iff_supertype]

theorem members_covers (hmembers : members family g = .ok listed) : family.Covers g listed := by
  obtain ⟨declared, hdeclared, hlisted⟩ := ok_of_bind hmembers
  have hall := forall₂_declared hdeclared
  by_cases hempty : declared.isEmpty
  · rw [if_pos hempty] at hlisted
    cases hlisted
    rw [List.isEmpty_iff.mp hempty] at hall
    rw [implicitChildren_eq]
    exact .implicit (List.forall₂_nil_right_iff.mp hall)
  · rw [if_neg hempty] at hlisted
    cases hlisted
    refine .declared (fun hnone => hempty ?_) hall
    rw [hnone] at hall
    rw [List.forall₂_nil_left_iff.mp hall]
    rfl

/-- The children that are linked, with their tags. -/
def tagged (family : Family) (g : TypeGraph) (members : List (TypeId × Option String)) :
    List (TypeId × String) :=
  (members.filter fun member => member.1 ≠ family.parent).map fun member =>
    (member.1, member.2.getD (defaultTag g family.identification member.1))

theorem tagged_self (members : List (TypeId × Option String)) (tag : Option String) :
    family.tagged g ((family.parent, tag) :: members) = family.tagged g members := by
  simp [tagged]

theorem tagged_cons (hne : id ≠ family.parent) (members : List (TypeId × Option String))
    (tag : Option String) : family.tagged g ((id, tag) :: members) =
      (id, tag.getD (defaultTag g family.identification id)) :: family.tagged g members := by
  simp [tagged, hne]

theorem defaultTag_keeps (hk : g.Keeps h) (hsize : h.size = g.size)
    (identification : Identification) :
    defaultTag h identification = defaultTag g identification := by
  funext id
  cases identification with
  | logicalName =>
    have hname : (h.get id).name = (g.get id).name := hk.part_eq hsize id fun _ => rfl
    exact hname
  | className => exact congrFun (hk.names hsize).2 id

theorem tagged_keeps (hk : g.Keeps h) (hsize : h.size = g.size)
    (members : List (TypeId × Option String)) :
    family.tagged h members = family.tagged g members := by
  rw [tagged, defaultTag_keeps hk hsize]
  rfl

theorem mem_tagged {members : List (TypeId × Option String)} :
    id ∈ (family.tagged g members).map (·.1) ↔ id ≠ family.parent ∧ id ∈ members.map (·.1) := by
  simp [tagged, and_comm]

theorem supertype_placed {kids : List TypeId} :
    ((g.mapIds (placed kind parent kids)).get id).supertype =
      if g.Has id ∧ kind = .bean ∧ id ∈ kids then some (.generated parent)
      else (g.get id).supertype := by
  by_cases hid : g.Has id
  · rw [TypeGraph.get_mapIds hid]
    simp [placed, hid]
  · rw [TypeGraph.get_of_not_has hid, TypeGraph.get_of_not_has (by simpa using hid)]
    simp [hid]

theorem admits_placed (hadmits : Admits g parent child) :
    Admits (g.mapIds (placed (g.get parent).kind parent [child])) parent id ↔
      Admits g parent id := by
  have hkind : ∀ other, ((g.mapIds (placed (g.get parent).kind parent [child])).get other).kind =
      (g.get other).kind :=
    fun other => (keeps_placed g [child]).part_eq (TypeGraph.size_mapIds _ _) other fun _ => rfl
  unfold Admits at *
  rw [hkind parent, hkind id, supertype_placed]
  by_cases hplaced : g.Has id ∧ (g.get parent).kind = .bean ∧ id ∈ [child]
  · rw [if_pos hplaced]
    obtain ⟨-, hbean, hmem⟩ := hplaced
    rw [List.mem_singleton.mp hmem]
    simp only [hbean, reduceCtorEq, false_or] at hadmits ⊢
    exact ⟨fun _ => hadmits, fun _ => ⟨trivial, hadmits.2.1, by simp⟩⟩
  · rw [if_neg hplaced]

/-- Binding children succeeds exactly if the tags differ and every child is admitted, and it places
them all. -/
theorem bindChildren_iff : ∀ {members : List (TypeId × Option String)} {g h : TypeGraph}
    {done all : List (TypeId × String)}, (done.map (·.2)).Nodup →
    (bindChildren family g done members = .ok (h, all) ↔
      all = done ++ family.tagged g members ∧ (all.map (·.2)).Nodup ∧
      (∀ kid ∈ (family.tagged g members).map (·.1), Admits g family.parent kid) ∧
      h = g.mapIds (placed (g.get family.parent).kind family.parent
        ((family.tagged g members).map (·.1)))) := by
  intro members
  induction members with
  | nil =>
    intro g h done all hdone
    have hplaced : placed (g.get family.parent).kind family.parent [] = fun _ d => d :=
      funext fun _ => funext placed_nil
    simp only [bindChildren, tagged, List.filter_nil, List.map_nil, List.append_nil, hplaced,
      TypeGraph.mapIds_unchanged, Except.ok.injEq, Prod.mk.injEq]
    constructor
    · rintro ⟨rfl, rfl⟩
      exact ⟨rfl, hdone, by simp, rfl⟩
    · rintro ⟨rfl, -, -, rfl⟩
      exact ⟨rfl, rfl⟩
  | cons member rest ih =>
    intro g h done all hdone
    obtain ⟨id, tag⟩ := member
    by_cases hself : id = family.parent
    · subst hself
      rw [tagged_self, bindChildren, if_pos rfl]
      exact ih hdone
    · rw [tagged_cons hself, bindChildren, if_neg hself]
      generalize tag.getD (defaultTag g family.identification id) = chosen
      by_cases hused : (done.map (·.2)).contains chosen = true
      · simp only [hused, if_true]
        refine iff_of_false (fun h => by cases h) ?_
        rintro ⟨rfl, hnodup, -⟩
        rw [List.map_append, List.nodup_append] at hnodup
        exact hnodup.2.2 chosen (List.contains_iff_mem.mp hused) chosen (by simp) rfl
      · simp only [hused]
        have hdone' : ((done ++ [(id, chosen)]).map (·.2)).Nodup := by
          rw [List.map_append, List.nodup_append]
          refine ⟨hdone, by simp, fun other hother new hnew hsame => hused ?_⟩
          rw [List.map_singleton, List.mem_singleton] at hnew
          obtain rfl : other = chosen := hsame.trans hnew
          exact List.contains_iff_mem.mpr hother
        let mid := g.mapIds (placed (g.get family.parent).kind family.parent [id])
        have hkeeps : g.Keeps mid := keeps_placed g [id]
        have hsize : mid.size = g.size := TypeGraph.size_mapIds _ _
        have hkind : (mid.get family.parent).kind = (g.get family.parent).kind :=
          hkeeps.part_eq hsize _ fun _ => rfl
        have hih := @ih mid h (done ++ [(id, chosen)]) all hdone'
        rw [tagged_keeps hkeeps hsize, hkind, TypeGraph.mapIds_mapIds, List.append_assoc,
          List.singleton_append] at hih
        simp only [← placed_cons] at hih
        rw [List.map_cons, List.forall_mem_cons]
        constructor
        · intro hbind
          obtain ⟨_, hlink, hrest⟩ := ok_of_bind hbind
          obtain ⟨hadmits, rfl⟩ := (link_iff hself).mp hlink
          obtain ⟨hall, hnodup, hothers, hh⟩ := hih.mp hrest
          exact ⟨hall, hnodup,
            ⟨hadmits, fun kid hkid => (admits_placed hadmits).mp (hothers kid hkid)⟩,
            hh⟩
        · rintro ⟨hall, hnodup, ⟨hadmits, hothers⟩, hh⟩
          have hlink : link g family.parent id = .ok mid := (link_iff hself).mpr ⟨hadmits, rfl⟩
          rw [hlink]
          exact hih.mpr
            ⟨hall, hnodup, fun kid hkid => (admits_placed hadmits).mpr (hothers kid hkid),
            hh⟩

end Family

/-- A family whose children and tags are known, with the kind of its parent. -/
structure Bond where
  parent : TypeId
  kind : TypeKind
  binding : Binding

namespace Bond

def kids (b : Bond) : List TypeId := b.binding.children.map (·.1)

def change (b : Bond) (id : TypeId) (d : TypeDecl) : TypeDecl :=
  { Family.placed b.kind b.parent b.kids id d with
    binding := if id = b.parent then some b.binding else d.binding }

def apply (b : Bond) (g : TypeGraph) : TypeGraph := g.mapIds b.change

variable {b : Bond} {g : TypeGraph} {id : TypeId}

@[simp] theorem size_apply : (b.apply g).size = g.size := TypeGraph.size_mapIds _ _

@[simp] theorem has_apply : (b.apply g).Has id ↔ g.Has id := TypeGraph.has_mapIds

theorem get_apply (hid : g.Has id) : (b.apply g).get id = b.change id (g.get id) :=
  TypeGraph.get_mapIds hid _

theorem keeps_apply (b : Bond) (g : TypeGraph) : g.Keeps (b.apply g) :=
  TypeGraph.keeps_mapIds (fun _ _ => rfl) fun _ _ => rfl

theorem kind_apply : ((b.apply g).get id).kind = (g.get id).kind :=
  (keeps_apply b g).part_eq size_apply id fun _ => rfl

theorem supertype_apply : ((b.apply g).get id).supertype =
    if g.Has id ∧ b.kind = .bean ∧ id ∈ b.kids then some (.generated b.parent)
    else (g.get id).supertype := by
  by_cases hid : g.Has id
  · rw [get_apply hid]
    simp [change, Family.placed, hid]
  · rw [TypeGraph.get_of_not_has hid, TypeGraph.get_of_not_has (by simpa using hid)]
    simp [hid]

theorem mem_subtypes_apply {kid : TypeId} : kid ∈ ((b.apply g).get id).subtypes ↔
    kid ∈ (g.get id).subtypes ∨ g.Has id ∧ id = b.parent ∧ kid ∈ b.kids := by
  by_cases hid : g.Has id
  · rw [get_apply hid]
    simp only [change, Family.placed, hid, true_and]
    by_cases hparent : id = b.parent
    · rw [if_pos hparent, Family.mem_foldl_addOnce]
      simp [hparent]
    · simp [hparent]
  · rw [TypeGraph.get_of_not_has hid, TypeGraph.get_of_not_has (by simpa using hid)]
    simp [hid]

theorem subtypes_apply (hne : id ≠ b.parent) :
    ((b.apply g).get id).subtypes = (g.get id).subtypes := by
  by_cases hid : g.Has id
  · rw [get_apply hid]
    simp [change, Family.placed, hne]
  · rw [TypeGraph.get_of_not_has hid, TypeGraph.get_of_not_has (by simpa using hid)]

end Bond

namespace Family

variable {family : Family} {g h : TypeGraph} {b : Bond}

/-- The family can be bound, and this is how. -/
structure Binds (g : TypeGraph) (family : Family) (b : Bond) : Prop where
  parent : b.parent = family.parent
  kind : b.kind = (g.get family.parent).kind
  binding : ∃ listed, members family g = .ok listed ∧
    b.binding = ⟨family.inclusion, family.identification, family.property, family.tagged g listed⟩
  tags : (b.binding.children.map (·.2)).Nodup
  admitted : ∀ kid ∈ b.kids, Admits g family.parent kid

/-- A family binds the children that it declares. If it declares none, it binds those that count as
children of its parent already. -/
theorem Binds.mem_kids (hb : family.Binds g b) {id : TypeId} :
    id ∈ b.kids ↔ id ≠ family.parent ∧
      ((∃ entry ∈ family.children, declaredChild g entry.1 = .ok id) ∨
        family.children = [] ∧ id ∈ implicitChildren g family.parent) := by
  obtain ⟨listed, hmembers, hbinding⟩ := hb.binding
  rw [Bond.kids, hbinding, mem_tagged]
  refine and_congr_right fun _ => ?_
  cases members_covers hmembers with
  | declared hsome hall => simp [mem_declared hall, hsome]
  | implicit hnone => simp [hnone, implicitChildren_eq]

/-- A type that extends something goes on to, and only a child that a class binds may begin to. -/
theorem Binds.supertype (hb : family.Binds g b) (id : TypeId) :
    ((b.apply g).get id).supertype = (g.get id).supertype ∨
      (g.get id).supertype = none ∧ b.kind = .bean ∧ id ∈ b.kids ∧
        ((b.apply g).get id).supertype = some (.generated b.parent) := by
  rw [Bond.supertype_apply]
  by_cases hplaced : g.Has id ∧ b.kind = .bean ∧ id ∈ b.kids
  · rw [if_pos hplaced]
    obtain ⟨-, hbean, hkid⟩ := hplaced
    have hadmits := hb.admitted id hkid
    simp only [Admits, ← hb.kind, hbean, reduceCtorEq, false_or, true_and] at hadmits
    rcases hadmits.2 with hnone | hsame
    · exact .inr ⟨hnone, hbean, hkid, rfl⟩
    · rw [hsame, hb.parent]
      exact .inl rfl
  · rw [if_neg hplaced]
    exact .inl rfl

theorem Binds.extends (hb : family.Binds g b) {id : TypeId} (hid : (g.get id).supertype ≠ none) :
    ((b.apply g).get id).supertype = (g.get id).supertype := by
  rcases hb.supertype id with hsame | ⟨hnone, -⟩
  · exact hsame
  · exact absurd hnone hid

theorem update_placed (b : Bond) (g : TypeGraph) :
    (g.mapIds (placed b.kind b.parent b.kids)).update b.parent
      (fun d => { d with binding := some b.binding }) = b.apply g := by
  rw [TypeGraph.update_eq_mapIds, TypeGraph.mapIds_mapIds]
  refine TypeGraph.mapIds_congr fun id _ => ?_
  by_cases hid : id = b.parent
  · rw [if_pos hid, Bond.change, if_pos hid]
  · rw [if_neg hid, Bond.change, if_neg hid]
    rfl

/-- Binding a family succeeds exactly if it can be bound, and changes every type accordingly. -/
theorem bind_iff : bind g family = .ok h ↔ ∃ b, family.Binds g b ∧ h = b.apply g := by
  constructor
  · intro hbind
    unfold bind at hbind
    simp only at hbind
    split at hbind
    · rename_i bound hbound
      obtain rfl := Except.ok.inj hbind
      obtain ⟨listed, hmembers, hbound⟩ := ok_of_bind hbound
      obtain ⟨⟨linked, all⟩, hlinked, hpure⟩ := ok_of_bind hbound
      cases hpure
      obtain ⟨hall, hnodup, hadmitted, rfl⟩ := (bindChildren_iff (by simp)).mp hlinked
      rw [List.nil_append] at hall
      subst hall
      let b : Bond := ⟨family.parent, (g.get family.parent).kind,
        ⟨family.inclusion, family.identification, family.property, family.tagged g listed⟩⟩
      exact ⟨b, ⟨rfl, rfl, ⟨listed, hmembers, rfl⟩, hnodup, hadmitted⟩, update_placed b g⟩
    · cases hbind
  · rintro ⟨b, hb, rfl⟩
    obtain ⟨listed, hmembers, hbinding⟩ := hb.binding
    have hkids : b.kids = (family.tagged g listed).map (·.1) := by rw [Bond.kids, hbinding]
    have hlinked : bindChildren family g [] listed =
        .ok (g.mapIds (placed b.kind b.parent b.kids), b.binding.children) := by
      rw [bindChildren_iff (by simp), hb.parent, hb.kind, hkids]
      exact ⟨by rw [hbinding]; rfl, hb.tags, fun kid hkid => hb.admitted kid (hkids ▸ hkid), rfl⟩
    unfold bind
    rw [hmembers]
    simp only [hlinked, Bind.bind, Except.bind]
    rw [← update_placed, hb.parent, hbinding]
    rfl

end Family

end SchemaBeans
