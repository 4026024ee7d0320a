import SchemaBeans.Proofs.Generation.Links
import SchemaBeans.Proofs.Java.Files

/-! # What the written names mean

A written name means its type wherever its first part has no rival: the first part is found, and
each part behind it leads to the type nested under that name. Where no first part in a file has a
rival, its imports do not stand in the way of one another either. -/
namespace SchemaBeans.Java

variable {s : Scope} {sheet : Sheet} {classpath : Classpath} {top : TypeId} {around : List TypeId}
  {type : Referent} {g : TypeGraph} {id owner inner : TypeId}

theorem nameParts_of_not_mem {name : String} (h : '.' ∉ name.toList) : nameParts name = [name] := by
  rw [nameParts, Text.pieces_of_not_mem h]
  simp

theorem nameParts_append (outer : String) {name : String} (h : '.' ∉ name.toList) :
    nameParts (outer ++ "." ++ name) = nameParts outer ++ [name] := by
  have hcut : (outer ++ "." ++ name).toList = outer.toList ++ '.' :: name.toList := by simp
  rw [nameParts, hcut, Text.pieces_append, Text.pieces_of_not_mem h]
  simp [nameParts]

theorem resolves_ne_nil {names : List String} (h : s.Resolves names type) : names ≠ [] := by
  cases h <;> simp

theorem resolves_singleton {name : String} : s.Resolves [name] type ↔ s.Means name type := by
  constructor
  · intro h
    generalize hnames : [name] = names at h
    cases h with
    | simple h =>
      cases hnames
      exact h
    | member houter =>
      have hlength := congrArg List.length hnames
      rw [List.length_append, List.length_singleton, List.length_singleton] at hlength
      have hpos := List.length_pos_iff.mpr (resolves_ne_nil houter)
      omega
  · exact .simple

theorem memberType_nested (hg : g.Orderly) (hinner : g.Has inner)
    (howner : (g.get inner).enclosing = some owner) :
    MemberType g classpath (.generated owner) (g.get inner).name type ↔ type =
    .generated inner := by
  constructor
  · intro h
    generalize hname : (g.get inner).name = name at h
    cases h with
    | declared hother howner' =>
      rw [hg.housed.nested_unique hg.nests hg.distinct hinner hother howner howner' hname]
    | inherited hfree => exact absurd hname (hfree inner hinner howner)
  · rintro rfl
    exact .declared hinner howner

theorem memberType_bare {name : String} (hkind : (g.get owner).kind = .bean)
    (hsuper : (g.get owner).supertype = none) (hinterfaces : (g.get owner).interfaces = [])
    (h : MemberType g classpath (.generated owner) name type) :
    ∃ inner, g.Has inner ∧ (g.get inner).enclosing = some owner ∧ (g.get inner).name = name ∧
      type = .generated inner := by
  cases h with
  | declared hinner howner => exact ⟨_, hinner, howner, rfl, rfl⟩
  | inherited _ hparent =>
    cases hparent with
    | superclass _ h | library _ h =>
      rw [hsuper] at h
      cases h
    | interface _ h =>
      rw [hinterfaces] at h
      cases h
    | enum h =>
      rw [hkind] at h
      cases h

theorem resolves_generated (hg : s.graph.Orderly) (hid : s.graph.Has id)
    (hmeans : s.Means (s.graph.get (s.graph.outermost id)).name
      (.generated (s.graph.outermost id))) :
    s.Resolves (nameParts (s.graph.binaryName id)) (.generated id) := by
  refine hg.nests.induction (P := fun id =>
    s.Means (s.graph.get (s.graph.outermost id)).name (.generated (s.graph.outermost id)) →
      s.Resolves (nameParts (s.graph.binaryName id)) (.generated id))
    (fun id hid ih hmeans => ?_) hid hmeans
  have hdot := hg.dotless id hid
  rw [TypeGraph.binaryName_eq hg.nests hid]
  cases howner : (s.graph.get id).enclosing with
  | none =>
    rw [TypeGraph.outermost_topLevel hg.nests hid howner] at hmeans
    rw [nameParts_of_not_mem hdot]
    exact .simple hmeans
  | some owner =>
    rw [TypeGraph.outermost_nested hg.nests hid howner] at hmeans
    rw [nameParts_append _ hdot]
    exact .member (ih owner howner hmeans) ((memberType_nested hg hid howner).mpr rfl)
      fun other => (memberType_nested hg hid howner).mp

/-- A generated type that exists, or a class without type arguments. -/
def Referent.Proper (g : TypeGraph) : Referent → Prop
  | .generated id => g.Has id
  | .library name => '<' ∉ name.toList

theorem proper_of_mem_named {t : TypeRef} (ht : t.Valid g) (h : type ∈ t.named) :
    type.Proper g := by
  induction t with
  | any | string | scalar => cases h
  | library name =>
    rw [TypeRef.named] at h
    split at h
    · cases h
    · rename_i hplain
      rw [List.mem_singleton.mp h]
      simpa [Referent.Proper] using hplain
  | generated id =>
    rw [List.mem_singleton.mp h]
    exact ht id rfl
  | list _ ih => exact ih ht h
  | set _ ih => exact ih ht h

def Sheet.Decorated (sheet : Sheet) : Prop :=
  ∀ target, ∀ type ∈ sheet.namedOn target, type.Proper sheet.graph

section Proper

variable (hclosed : sheet.graph.Closed) (hdecorated : sheet.Decorated)

include hclosed hdecorated

theorem proper_of_mem_headNames (h : type ∈ sheet.headNames id) : type.Proper sheet.graph := by
  rcases List.mem_append.mp h with h | h
  · exact hdecorated _ type h
  · split at h
    · rcases List.mem_append.mp h with h | h
      · obtain ⟨t, ht, h⟩ := List.mem_flatMap.mp h
        exact proper_of_mem_named ((hclosed id).supertype t (Option.mem_toList.mp ht)) h
      · obtain ⟨parent, hparent, rfl⟩ := List.mem_map.mp h
        exact (hclosed id).interfaces parent hparent
    · cases h

theorem proper_of_mem_bodyNames (h : type ∈ sheet.bodyNames id) : type.Proper sheet.graph := by
  unfold Sheet.bodyNames at h
  dsimp only at h
  split at h
  · rcases List.mem_append.mp h with h | h
    · obtain ⟨⟨property, i⟩, hproperty, h⟩ := List.mem_flatMap.mp h
      rcases List.mem_append.mp h with h | h
      · exact hdecorated _ type h
      · refine proper_of_mem_named ((hclosed id).properties property ?_) h
        exact List.mem_of_getElem? (List.mem_zipIdx_iff_getElem?.mp hproperty)
    · obtain ⟨t, ht, h⟩ := List.mem_flatMap.mp h
      exact proper_of_mem_named ((hclosed id).extension t (Option.mem_toList.mp ht)) h
  · rcases List.mem_append.mp h with h | h
    · exact proper_of_mem_named (hclosed id).values h
    · obtain ⟨constant, -, h⟩ := List.mem_flatMap.mp h
      exact hdecorated _ type h
  · cases h

theorem Sheet.NamedAt.proper (h : sheet.NamedAt top around type) : type.Proper sheet.graph := by
  cases h with
  | head _ _ h => exact proper_of_mem_headNames hclosed hdecorated h
  | body _ _ h => exact proper_of_mem_bodyNames hclosed hdecorated h

end Proper

/-- The first part of the written name has no rival at a place of the file. -/
def Sheet.ClearAt (sheet : Sheet) (classpath : Classpath) (top : TypeId) (around : List TypeId)
    (type : Referent) : Prop :=
  (sheet.scope classpath top around).Unrivalled (sheet.leading type) (sheet.outer type)

/-- The written name means the type at a place of the file. -/
def Sheet.ResolvesAt (sheet : Sheet) (classpath : Classpath) (top : TypeId) (around : List TypeId)
    (type : Referent) : Prop :=
  (sheet.scope classpath top around).Resolves (nameParts (sheet.spelled type)) type

section Names

variable (hg : sheet.graph.Orderly) (hhas : sheet.graph.Has top)
  (htop : (sheet.graph.get top).enclosing = none)

include hg

theorem imported_leading (hproper : type.Proper sheet.graph) {full : String}
    (h : sheet.imported? type = some full) : simpleName full = sheet.leading type := by
  cases type with
  | generated id =>
    obtain ⟨houter, hopen⟩ := TypeGraph.outermost_spec hg.nests hproper
    simp only [Sheet.imported?] at h
    split at h
    · rename_i hpackage
      obtain rfl := Option.some.inj h
      have hfilled : (sheet.graph.get (sheet.graph.outermost id)).package ≠ "" := by
        simp only [Bool.and_eq_true, Bool.not_eq_true', bne_iff_ne] at hpackage
        simpa using hpackage.1
      rw [TypeGraph.qualifiedName_topLevel hg.nests houter hopen, inPackage_of_ne hfilled]
      exact simpleName_append _ (hg.dotless _ houter)
    · cases h
  | library name =>
    simp only [Sheet.imported?] at h
    split at h
    · cases h
    · split at h
      · cases h
      · split at h
        · obtain rfl := Option.some.inj h
          rfl
        · cases h

theorem nameParts_spelled (hproper : type.Proper sheet.graph) (houter : sheet.outer type = type) :
    nameParts (sheet.spelled type) = [sheet.leading type] := by
  cases type with
  | generated id =>
    have hid : sheet.graph.outermost id = id := Referent.generated.inj houter
    have hopen := (TypeGraph.outermost_spec hg.nests hproper).2
    rw [hid] at hopen
    rw [Sheet.spelled, Sheet.leading, hid, TypeGraph.binaryName_eq hg.nests hproper, hopen]
    exact nameParts_of_not_mem (hg.dotless id hproper)
  | library name =>
    have hplain : '<' ∉ name.toList := hproper
    rw [Sheet.spelled, if_neg (by simpa using hplain), Sheet.leading]
    exact nameParts_of_not_mem (dot_not_mem_simpleName name)

/-- A simple name that means its type has no rival, unless a declaration around has the type as a
member. -/
theorem Sheet.ResolvesAt.clear (hproper : type.Proper sheet.graph)
    (houter : sheet.outer type = type)
    (hnot : ∀ owner ∈ around,
      ¬ MemberType sheet.graph classpath (.generated owner) (sheet.leading type) type)
    (h : sheet.ResolvesAt classpath top around type) : sheet.ClearAt classpath top around type := by
  rw [Sheet.ResolvesAt, nameParts_spelled hg hproper houter, resolves_singleton] at h
  rw [Sheet.ClearAt, houter]
  exact Scope.Unrivalled.of_means h hnot

include hhas htop

theorem Sheet.NamedAt.resolves (hproper : type.Proper sheet.graph)
    (hnamed : sheet.NamedAt top around type)
    (hcan : (sheet.scope classpath top around).CanName type)
    (hclear : sheet.ClearAt classpath top around type) :
    sheet.ResolvesAt classpath top around type := by
  cases type with
  | generated id =>
    refine resolves_generated hg hproper (hclear.means ?_)
    exact (known_generated hg hhas htop hproper hnamed hcan).imp_right .inl
  | library name =>
    rw [Sheet.ResolvesAt, nameParts_spelled hg hproper rfl]
    exact .simple (hclear.means (known_library hg hhas htop hproper hnamed hcan hclear))

/-- Imports stand apart by their simple names if no name in the file has a rival. -/
theorem imports_distinct
    (hproper : ∀ around type, sheet.NamedAt top around type → type.Proper sheet.graph)
    (hclear : ∀ around type, sheet.NamedAt top around type →
      sheet.ClearAt classpath top around type) :
    ((sheet.imports top).map simpleName).Nodup := by
  -- An import of a named type has no import of its simple name beside it.
  have hapart : ∀ around type, sheet.NamedAt top around type → ∀ a b : String,
      sheet.imported? type = some a → b ∈ sheet.imports top → simpleName a =
      simpleName b → a = b := by
    intro around type hnamed a b himported hb hsimple
    have hleading := imported_leading hg (hproper around type hnamed) himported
    have honly : ∀ full ∈ sheet.imports top, simpleName full = simpleName a →
        Denotes sheet.graph full (sheet.outer type) := by
      intro full hfull hname
      obtain ⟨other, hother, -⟩ := exists_denotes sheet.graph full
      have hfile : (sheet.scope classpath top around).InFile (sheet.leading type) other :=
        .inr ⟨full, hfull, hname.trans hleading, hother⟩
      rwa [(hclear around type hnamed).file other hfile] at hother
    exact (honly a (hnamed.imported hg hhas htop himported) rfl).full_eq (honly b hb hsimple.symm)
  refine List.Nodup.map_on (fun a ha b hb hsimple => ?_) (nodup_sortedImports _)
  rcases mem_imports hg hhas htop ha with hhelp | ⟨around, type, hnamed, himported⟩
  · rcases mem_imports hg hhas htop hb with hhelp' | ⟨around, type, hnamed, himported⟩
    · exact List.inj_on_of_nodup_map (helperClasses_distinct _) hhelp hhelp' hsimple
    · exact (hapart around type hnamed b a himported ha hsimple.symm).symm
  · exact hapart around type hnamed a b himported hb hsimple

end Names

end SchemaBeans.Java
