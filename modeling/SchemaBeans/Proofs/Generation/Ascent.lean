import SchemaBeans.Proofs.Generation.Consistency

/-! # Types below others

A type is placed below a class when it extends it, or when the class lists it among its subtypes.
Whoever is linked to the class of a union gets both. What a schema names in `extends` may later take
the place of the superclass, but the list stays as it is. So during a run a type that was below
another one stays below it, and what extends something or implements an interface goes on to. -/
namespace SchemaBeans

namespace TypeGraph

variable {g h : TypeGraph} {a b id marker child : TypeId}

/-- The second type, which is no interface, lists the first one among its subtypes. -/
structure Lists (g : TypeGraph) (a b : TypeId) : Prop where
  kind : (g.get b).kind ≠ .interface
  subtype : a ∈ (g.get b).subtypes

def Below (g : TypeGraph) (a b : TypeId) : Prop := g.Extends a b ∨ g.Lists a b

/-- Whatever the type extends lists it, so another superclass takes it from below no type. -/
def Loose (g : TypeGraph) (id : TypeId) : Prop := ∀ b, g.Extends id b → g.Lists id b

/-- No type loses an interface or its last superclass, and each stays below those it was below. -/
structure Ascends (g h : TypeGraph) : Prop where
  interfaces : ∀ id, (g.get id).interfaces ⊆ (h.get id).interfaces
  supertype : ∀ id, (g.get id).supertype ≠ none → (h.get id).supertype ≠ none
  superclass : ∀ a b, g.Extends a b → h.Below a b
  lists : ∀ a b, g.Lists a b → h.Lists a b

theorem Ascends.below (hg : g.Ascends h) (hab : g.Below a b) : h.Below a b := by
  rcases hab with hextends | hlists
  · exact hg.superclass a b hextends
  · exact .inr (hg.lists a b hlists)

instance : IsPreorder TypeGraph Ascends where
  refl _ := ⟨fun _ => List.Subset.refl _, fun _ h => h, fun _ _ h => .inl h, fun _ _ h => h⟩
  trans _ _ _ hf hg :=
    ⟨fun id => List.Subset.trans (hf.interfaces id) (hg.interfaces id),
      fun id hid => hg.supertype id (hf.supertype id hid),
      fun a b hab => hg.below (hf.superclass a b hab),
      fun a b hab => hg.lists a b (hf.lists a b hab)⟩

theorem loose_of_none (hnone : (g.get id).supertype = none) : g.Loose id := by
  intro b hb
  rw [extends_iff_supertype, hnone] at hb
  cases hb

theorem Loose.ascends (hid : g.Loose id) (hg : g.Ascends h)
    (hback : ∀ b, h.Extends id b → g.Extends id b ∨ h.Lists id b) : h.Loose id := by
  intro b hb
  rcases hback b hb with hold | hnew
  · exact hg.lists id b (hid b hold)
  · exact hnew

theorem get_update_rel {change : TypeDecl → TypeDecl} {R : TypeDecl → TypeDecl → Prop}
    (hsame : ∀ t, R t t) (hchange : R (g.get id) (change (g.get id))) (other : TypeId) :
    R (g.get other) ((g.update id change).get other) := by
  by_cases he : other = id
  · subst he
    by_cases hid : g.Has other
    · rw [get_update_self hid]
      exact hchange
    · rw [get_of_not_has hid, get_of_not_has (by simpa using hid)]
      exact hsame _
  · rw [get_update_ne he]
    exact hsame _

theorem ascends_update {change : TypeDecl → TypeDecl} (hhead : ∀ t, (change t).head = t.head)
    (hinterfaces : (g.get id).interfaces ⊆ (change (g.get id)).interfaces)
    (hsubtypes : (g.get id).subtypes ⊆ (change (g.get id)).subtypes)
    (hsuper : (change (g.get id)).supertype = (g.get id).supertype ∨
      (change (g.get id)).supertype ≠ none ∧ g.Loose id) :
    g.Ascends (g.update id change) := by
  have hkind : ∀ other, ((g.update id change).get other).kind = (g.get other).kind := by
    have hparts := fun t => congrArg TypeDecl.kind (hhead t)
    exact fun other => get_update_congr g id other TypeDecl.kind hparts
  have hlists : ∀ a b, g.Lists a b → (g.update id change).Lists a b := fun a b hab =>
    ⟨by rw [hkind]; exact hab.kind,
      get_update_rel (R := fun t u => t.subtypes ⊆ u.subtypes) (fun _ => List.Subset.refl _)
        hsubtypes b hab.subtype⟩
  refine ⟨get_update_rel (R := fun t u => t.interfaces ⊆ u.interfaces)
    (fun _ => List.Subset.refl _) hinterfaces, ?_, ?_, hlists⟩
  · refine get_update_rel (R := fun t u => t.supertype ≠ none → u.supertype ≠ none)
      (fun _ h => h) fun hold => ?_
    rcases hsuper with hsame | ⟨hnew, _⟩
    · rwa [hsame]
    · exact hnew
  · intro a b hab
    by_cases ha : a = id
    · subst ha
      rcases hsuper with hsame | ⟨_, hloose⟩
      · refine .inl ?_
        rw [extends_iff_supertype] at hab ⊢
        rw [get_update_self (Extends.has (extends_iff_supertype.mpr hab)), hsame, hab]
      · exact .inr (hlists a b (hloose b hab))
    · refine .inl ?_
      unfold Extends at hab ⊢
      rwa [get_update_ne ha]

theorem ascends_insert {decl : TypeDecl} : g.Ascends (g.insert decl).2 := by
  have hpart : ∀ id, g.get id = {} ∨
      (g.insert decl).2.get id = { g.get id with nested := (g.insert decl).2.nested id } := by
    intro id
    by_cases hid : g.Has id
    · exact .inr (get_insert_of_has hid decl)
    · exact .inl (get_of_not_has hid)
  refine ⟨fun id => ?_, fun id hid => ?_, fun a b hab => .inl ?_, fun a b hab => ?_⟩
  · rcases hpart id with hnone | hsame
    · rw [hnone]
      exact List.nil_subset _
    · rw [hsame]
      exact List.Subset.refl _
  · rcases hpart id with hnone | hsame
    · rw [hnone] at hid
      exact absurd rfl hid
    · rw [hsame]
      exact hid
  · unfold Extends at *
    rw [get_insert_of_has (Extends.has hab)]
    exact hab
  · rcases hpart b with hnone | hsame
    · have hnot := hab.subtype
      rw [hnone] at hnot
      cases hnot
    · exact ⟨by rw [hsame]; exact hab.kind, by rw [hsame]; exact hab.subtype⟩

end TypeGraph

namespace Drafting

open TypeGraph

variable {g h : TypeGraph} {a b id marker child : TypeId}

theorem ascends_addSubtype (g : TypeGraph) (parent child : TypeId) :
    g.Ascends (g.update parent fun d => { d with subtypes := Family.addOnce child d.subtypes }) :=
  ascends_update (fun _ => rfl) (List.Subset.refl _) (fun _ h => mem_addOnce.mpr (.inr h))
    (.inl rfl)

theorem ascends_addInterface (g : TypeGraph) (parent child : TypeId) :
    g.Ascends
      (g.update child fun d => { d with interfaces := Family.addOnce parent d.interfaces }) :=
  ascends_update (fun _ => rfl) (fun _ h => mem_addOnce.mpr (.inr h))
    (List.Subset.refl _) (.inl rfl)

theorem ascends_setSupertype (hid : g.Loose id) (supertype : TypeRef) :
    g.Ascends (g.update id fun d => { d with supertype := some supertype }) :=
  ascends_update (fun _ => rfl) (List.Subset.refl _) (List.Subset.refl _) (.inr ⟨by simp, hid⟩)

theorem ascends_linkBranch (g : TypeGraph) (marker child : TypeId) (kind : TypeKind) :
    g.Ascends (linkBranch g marker kind child) := by
  unfold linkBranch
  dsimp only
  split
  · exact refl g
  split
  · exact IsTrans.trans _ _ _ (ascends_addInterface g marker child) (ascends_addSubtype _ _ _)
  split
  · exact refl g
  split
  · rename_i hnone
    exact IsTrans.trans _ _ _ (ascends_setSupertype (loose_of_none hnone) _)
      (ascends_addSubtype _ _ _)
  · split
    · exact ascends_addSubtype g marker child
    · exact refl g

theorem extends_linkBranch (hmarker : g.Has marker)
    (hab : (linkBranch g marker (g.get marker).kind child).Extends a b) :
    g.Extends a b ∨ (linkBranch g marker (g.get marker).kind child).Lists a b := by
  rcases linkBranch_cases g marker (g.get marker).kind child with hsame | hlink
  · rw [hsame] at hab
    exact .inl hab
  · obtain ⟨change, heq, hne, -, hkind, hsuper⟩ := hlink
    have hmid : (g.update child change).Extends a b := by
      rw [heq] at hab
      unfold Extends at hab ⊢
      rwa [get_addSubtype TypeDecl.superclass? fun _ _ => rfl] at hab
    rcases extends_update hmid with hold | ⟨rfl, hnew⟩
    · exact .inl hold
    · rcases hsuper with ⟨_, hkeep⟩ | ⟨hclass, _, hparent⟩
      · refine .inl ?_
        unfold Extends TypeDecl.superclass? at *
        rwa [hkeep] at hnew
      · rw [TypeDecl.superclass?, hparent] at hnew
        cases hnew
        have hself := get_update_self (g := g.update a change) (by simpa using hmarker)
          fun t => { t with subtypes := Family.addOnce a t.subtypes }
        rw [heq]
        refine .inr ⟨?_, ?_⟩
        · rw [hself, get_update_ne (Ne.symm hne)]
          exact hclass
        · rw [hself]
          exact mem_addOnce.mpr (.inl rfl)

/-- What linking a branch to the type of its union comes to. An interface is implemented by the
branch. Below a class the branch extends something afterwards, unless the class stands below it. -/
structure Joined (g : TypeGraph) (marker child : TypeId) : Prop where
  interface : (g.get marker).kind = .interface → marker ∈ (g.get child).interfaces
  superclass : (g.get marker).kind ≠ .interface →
    (g.get child).supertype ≠ none ∨ Relation.TransGen g.Below marker child

theorem Joined.ascends (hjoined : Joined g marker child) (hg : g.Ascends h)
    (hkind : (h.get marker).kind = (g.get marker).kind) : Joined h marker child := by
  refine ⟨fun hinterface => ?_, fun hclass => ?_⟩
  · exact hg.interfaces child (hjoined.interface (hkind ▸ hinterface))
  · rcases hjoined.superclass (hkind ▸ hclass) with hextends | hbelow
    · exact .inl (hg.supertype child hextends)
    · exact .inr (Relation.TransGen.mono (fun _ _ => hg.below) _ _ hbelow)

theorem joined_linkBranch (hg : g.Acyclic) (hchild : g.Has child) (hne : child ≠ marker) :
    Joined (linkBranch g marker (g.get marker).kind child) marker child := by
  have hkind : ((linkBranch g marker (g.get marker).kind child).get marker).kind =
      (g.get marker).kind :=
    (keeps_linkBranch g marker _ child).part_eq (size_linkBranch _ _ _ _) marker fun _ => rfl
  have hself := fun change => get_update_self (g := g) hchild change
  refine ⟨fun hinterface => ?_, fun hclass => ?_⟩
  · rw [hkind] at hinterface
    unfold linkBranch
    simp only [if_neg hne, if_pos hinterface]
    rw [get_addSubtype TypeDecl.interfaces fun _ _ => rfl, hself]
    exact mem_addOnce.mpr (.inl rfl)
  · rw [hkind] at hclass
    unfold linkBranch
    simp only [if_neg hne, if_neg hclass]
    by_cases hinherits : g.inherits marker child = true
    · rw [if_pos hinherits]
      rcases Relation.reflTransGen_iff_eq_or_transGen.mp ((inherits_iff hg).mp hinherits) with
        hsame | hpath
      · exact absurd hsame hne
      · exact .inr (Relation.TransGen.mono (fun _ _ => .inl) _ _ hpath)
    · rw [if_neg hinherits]
      refine .inl ?_
      cases hsuper : (g.get child).supertype with
      | none =>
        simp only
        rw [get_addSubtype TypeDecl.supertype fun _ _ => rfl, hself]
        simp
      | some supertype =>
        by_cases hmarker : supertype = .generated marker
        · simp only [if_pos hmarker]
          rw [get_addSubtype TypeDecl.supertype fun _ _ => rfl, hsuper]
          simp
        · simp only [if_neg hmarker, hsuper]
          simp

end Drafting

end SchemaBeans
