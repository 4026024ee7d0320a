import SchemaBeans.Proofs.Java.Rendering

/-! # The names in a file

The name of a type is written so that it means the type, as long as no other type of the name is in
the way: its first part is imported or stands in the package, and the parts behind it lead inwards
one by one. -/
namespace SchemaBeans.Java

variable {sheet : Sheet} {classpath : Classpath} {top id : TypeId} {around : List TypeId}
  {type : Referent}

def Sheet.imports (sheet : Sheet) (top : TypeId) : List String :=
  sortedImports ((declarationLines sheet (sheet.graph.size + 1) 0 top).run []).2

def Sheet.scope (sheet : Sheet) (classpath : Classpath) (top : TypeId) (around : List TypeId) :
    Scope :=
  ⟨sheet.graph, classpath, sheet.package, top, sheet.imports top, around⟩

/-- In the file made for a type, a type is named at a place inside the given declarations. What
stands ahead of the body of a declaration does not stand inside it. -/
inductive Sheet.NamedAt (sheet : Sheet) (top : TypeId) : List TypeId → Referent → Prop
  | head {site : TypeId} {type : Referent} (hsite : sheet.graph.Has site)
      (htop : sheet.graph.outermost site = top) (h : type ∈ sheet.headNames site) :
      sheet.NamedAt top (sheet.graph.outwards site).tail type
  | body {site : TypeId} {type : Referent} (hsite : sheet.graph.Has site)
      (htop : sheet.graph.outermost site = top) (h : type ∈ sheet.bodyNames site) :
      sheet.NamedAt top (sheet.graph.outwards site) type

/-- The type that the first part of a written name stands for. -/
def Sheet.outer (sheet : Sheet) : Referent → Referent
  | .generated id => .generated (sheet.graph.outermost id)
  | .library name => .library name

def Sheet.leading (sheet : Sheet) : Referent → String
  | .generated id => (sheet.graph.get (sheet.graph.outermost id)).name
  | .library name => simpleName name

/-- A place can name a class that exists. A type of the unnamed package can only be named there. -/
def Scope.CanName (s : Scope) : Referent → Prop
  | .generated id => (s.graph.get (s.graph.outermost id)).package = "" → s.package = ""
  | .library name => s.classpath.Has name ∧ ('.' ∉ name.toList → s.package = "")

theorem mem_sortedImports {names : List String} {full : String} :
    full ∈ sortedImports names ↔ full ∈ names := by
  rw [sortedImports, List.mem_mergeSort, List.mem_eraseDups]

theorem nodup_eraseDups : ∀ (n : Nat) (names : List String), names.length ≤ n →
    names.eraseDups.Nodup := by
  intro n
  induction n with
  | zero =>
    intro names hlength
    rw [List.length_eq_zero_iff.mp (Nat.le_zero.mp hlength)]
    exact List.nodup_nil
  | succ n ih =>
    intro names hlength
    cases names with
    | nil => exact List.nodup_nil
    | cons name rest =>
      rw [List.eraseDups_cons]
      refine List.nodup_cons.mpr ⟨fun hmem => ?_, ih _ ?_⟩
      · have hkept := (List.mem_filter.mp (List.mem_eraseDups.mp hmem)).2
        simp at hkept
      · exact Nat.le_trans (List.length_filter_le _ _) (Nat.le_of_succ_le_succ hlength)

theorem nodup_sortedImports (names : List String) : (sortedImports names).Nodup :=
  (List.mergeSort_perm _ _).nodup_iff.mpr (nodup_eraseDups _ names (Nat.le_refl _))

theorem Sheet.NamedAt.exists_site (h : sheet.NamedAt top around type) :
    ∃ site, sheet.graph.Has site ∧ sheet.graph.outermost site = top ∧ type ∈ sheet.names site := by
  cases h with
  | head hsite htop h => exact ⟨_, hsite, htop, List.mem_append_left _ h⟩
  | body hsite htop h => exact ⟨_, hsite, htop, List.mem_append_right _ h⟩

theorem Sheet.exists_namedAt {site : TypeId} (hsite : sheet.graph.Has site)
    (htop : sheet.graph.outermost site = top) (h : type ∈ sheet.names site) :
    ∃ around, sheet.NamedAt top around type := by
  rcases List.mem_append.mp h with h | h
  · exact ⟨_, .head hsite htop h⟩
  · exact ⟨_, .body hsite htop h⟩

section Imports

variable (hg : sheet.graph.Orderly) (hhas : sheet.graph.Has top)
  (htop : (sheet.graph.get top).enclosing = none)

include hg hhas htop

theorem imports_writes :
    Writes sheet {full | full ∈ helperClasses sheet.settings.useJakartaValidation ∨
        ∃ around type, sheet.NamedAt top around type ∧ sheet.imported? type = some full}
      (declarationLines sheet (sheet.graph.size + 1) 0 top)
      ((sheet.graph.inside (sheet.graph.size + 1) top).flatMap sheet.names) := by
  refine declarationLines_writes (fun full hfull => .inl hfull) _ _ _
    fun type htype full hfull => ?_
  obtain ⟨site, hsite, hnames⟩ := List.mem_flatMap.mp htype
  obtain ⟨hsite, houter⟩ := (TypeGraph.mem_inside_topLevel hg.nests hhas htop).mp hsite
  obtain ⟨around, hnamed⟩ := Sheet.exists_namedAt hsite houter hnames
  exact .inr ⟨around, type, hnamed, hfull⟩

theorem Sheet.NamedAt.imported (h : sheet.NamedAt top around type) {full : String}
    (hfull : sheet.imported? type = some full) : full ∈ sheet.imports top := by
  obtain ⟨site, hsite, houter, hnames⟩ := h.exists_site
  have hinside := (TypeGraph.mem_inside_topLevel hg.nests hhas htop).mpr ⟨hsite, houter⟩
  exact mem_sortedImports.mpr ((imports_writes hg hhas htop).imports [] type
    (List.mem_flatMap.mpr ⟨site, hinside, hnames⟩) full hfull)

theorem mem_imports {full : String} (h : full ∈ sheet.imports top) :
    full ∈ helperClasses sheet.settings.useJakartaValidation ∨
      ∃ around type, sheet.NamedAt top around type ∧ sheet.imported? type = some full :=
  ((imports_writes hg hhas htop).only [] full (mem_sortedImports.mp h)).resolve_left
    List.not_mem_nil

end Imports

theorem exists_denotes (g : TypeGraph) (full : String) :
    ∃ type, Denotes g full type ∧ ∀ name, type = .library name → name = full := by
  by_cases h : ∃ id, g.Has id ∧ g.qualifiedName id = full
  · obtain ⟨id, hid, rfl⟩ := h
    exact ⟨_, .generated hid, fun name hname => by cases hname⟩
  · refine ⟨_, .library fun id hid heq => h ⟨id, hid, heq⟩, fun name hname => ?_⟩
    cases hname
    rfl

theorem Denotes.full_eq {g : TypeGraph} {a b : String} (ha : Denotes g a type)
    (hb : Denotes g b type) : a = b := by
  cases ha with
  | generated => cases hb; rfl
  | library => cases hb; rfl

theorem simpleName_of_not_mem {name : String} (h : '.' ∉ name.toList) : simpleName name = name := by
  rw [simpleName, Text.cutLast_eq_none.mpr h]

theorem dot_not_mem_simpleName (full : String) : '.' ∉ (simpleName full).toList := by
  unfold simpleName
  split
  · rename_i simple hcut
    simpa using (Text.cutLast_eq_some.mp hcut).2
  · rename_i hcut
    exact Text.cutLast_eq_none.mp hcut

theorem full_of_cutLast {full : String} {package simple : List Char}
    (h : Text.cutLast '.' full.toList = some (package, simple)) :
    full = String.ofList package ++ "." ++ simpleName full := by
  have hsimple : simpleName full = String.ofList simple := by rw [simpleName, h]
  rw [hsimple, ← String.toList_inj]
  simpa using (Text.cutLast_eq_some.mp h).1

theorem inPackage_of_ne {package name : String} (h : package ≠ "") :
    TypeGraph.inPackage package name = package ++ "." ++ name := by
  rw [TypeGraph.inPackage, if_neg (by simpa using h)]

theorem inPackage_empty (name : String) : TypeGraph.inPackage "" name = name := rfl

section Known

variable (hg : sheet.graph.Orderly) (hhas : sheet.graph.Has top)
  (htop : (sheet.graph.get top).enclosing = none)

include hg hhas htop

theorem known_generated (hid : sheet.graph.Has id)
    (hnamed : sheet.NamedAt top around (.generated id))
    (hcan : (sheet.scope classpath top around).CanName (.generated id)) :
    (sheet.scope classpath top around).InFile (sheet.leading (.generated id))
        (sheet.outer (.generated id)) ∨
      (sheet.scope classpath top around).InPackage (sheet.leading (.generated id))
        (sheet.outer (.generated id)) := by
  obtain ⟨houter, hopen⟩ := TypeGraph.outermost_spec hg.nests hid
  have hname := TypeGraph.qualifiedName_topLevel hg.nests houter hopen
  simp only [Scope.CanName, Sheet.scope] at hcan
  by_cases hpackage : (sheet.graph.get (sheet.graph.outermost id)).package = sheet.package
  · refine .inr ⟨?_, fun name hlibrary => by cases hlibrary⟩
    rw [hpackage] at hname
    simp only [Sheet.scope, Sheet.leading, Sheet.outer]
    rw [← hname]
    exact .generated houter
  · have hfilled : (sheet.graph.get (sheet.graph.outermost id)).package ≠ "" :=
      fun hnone => hpackage (hnone.trans (hcan hnone).symm)
    refine .inl (.inr ⟨sheet.graph.qualifiedName (sheet.graph.outermost id), ?_, ?_, ?_⟩)
    · exact hnamed.imported hg hhas htop (by simp [Sheet.imported?, hfilled, hpackage])
    · rw [hname, inPackage_of_ne hfilled]
      exact simpleName_append _ (hg.dotless _ houter)
    · exact .generated houter

/-- A class is imported, or it stands in the package of the file or where no import is needed. -/
theorem known_library {name : String} (hplain : '<' ∉ name.toList)
    (hnamed : sheet.NamedAt top around (.library name))
    (hcan : (sheet.scope classpath top around).CanName (.library name))
    (hfree : (sheet.scope classpath top around).Unrivalled (simpleName name) (.library name)) :
    (sheet.scope classpath top around).InFile (simpleName name) (.library name) ∨
      (sheet.scope classpath top around).InPackage (simpleName name) (.library name) ∨
      (sheet.scope classpath top around).InLang (simpleName name) (.library name) := by
  obtain ⟨type, htype, hlibrary⟩ := exists_denotes sheet.graph name
  obtain ⟨hexists, hunnamed⟩ := hcan
  have hstands : (sheet.scope classpath top around).Stands name type :=
    ⟨htype, fun other hother => hlibrary other hother ▸ hexists⟩
  by_cases hfile : (sheet.scope classpath top around).InFile (simpleName name) (.library name)
  · exact .inl hfile
  refine .inr ?_
  -- A generated type of the full name would be a rival, so the full name stands for the class.
  have hpackage : name = TypeGraph.inPackage sheet.package (simpleName name) →
      (sheet.scope classpath top around).InPackage (simpleName name) (.library name) := by
    intro hfull
    have hin : (sheet.scope classpath top around).InPackage (simpleName name) type := by
      simpa only [Scope.InPackage, Sheet.scope, ← hfull] using hstands
    rwa [hfree.package hfile type hin] at hin
  cases hcut : Text.cutLast '.' name.toList with
  | none =>
    have hdot := Text.cutLast_eq_none.mp hcut
    have hnone : sheet.package = "" := hunnamed hdot
    refine .inl (hpackage ?_)
    rw [hnone, inPackage_empty, simpleName_of_not_mem hdot]
  | some cut =>
    obtain ⟨package, simple⟩ := cut
    have hfull := full_of_cutLast hcut
    by_cases hlang : String.ofList package = "java.lang"
    · by_cases hin : (sheet.scope classpath top around).InPackage (simpleName name) (.library name)
      · exact .inl hin
      · have hin' : (sheet.scope classpath top around).InLang (simpleName name) type := by
          have hlong : "java.lang." ++ simpleName name = name := by
            rw [hfull, hlang, simpleName_append _ (dot_not_mem_simpleName _)]
            rfl
          rwa [Scope.InLang, hlong]
        rw [hfree.lang hfile hin type hin'] at hin'
        exact .inr hin'
    by_cases hown : String.ofList package = sheet.package
    · have hsome : String.ofList package ≠ "" := by
        intro hnone
        refine classpath.proper name hexists ?_
        rw [hfull, hnone]
        simp
      refine .inl (hpackage ?_)
      rw [← hown, inPackage_of_ne hsome]
      exact hfull
    · have himport : sheet.imported? (.library name) = some name := by
        simp [Sheet.imported?, hplain, hcut, hlang, hown]
      have hin : (sheet.scope classpath top around).InFile (simpleName name) type :=
        .inr ⟨name, hnamed.imported hg hhas htop himport, rfl, htype⟩
      rw [hfree.file type hin] at hin
      exact absurd hin hfile

end Known

end SchemaBeans.Java
