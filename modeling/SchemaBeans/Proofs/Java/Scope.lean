import SchemaBeans.Java.Source
import SchemaBeans.Proofs.Text.Cutting
import SchemaBeans.Proofs.TypeGraph.Nesting

/-! # What a type name means

A simple name is looked up from the inside out: among the member types of each declaration around
the place, in the source file itself, in its package and among the classes that need no import.
The first of these that knows the name decides, and it has to know it for one type only. In a
name with dots, each part behind a dot names a member type of what stands before it. -/
namespace SchemaBeans.Java

/-- What a type name can stand for. -/
inductive Referent where
  | generated (id : TypeId)
  | library (name : String)
  deriving DecidableEq, Repr

structure Classpath where
  Has : String → Prop
  member? : String → String → Option String
  proper : ∀ name, Has name → name.toList.head? ≠ some '.'

structure Scope where
  graph : TypeGraph
  classpath : Classpath
  package : String
  top : TypeId
  imports : List String
  around : List TypeId

def simpleName (full : String) : String :=
  match Text.cutLast '.' full.toList with
  | some (_, simple) => String.ofList simple
  | none => full

/-- The types of a full name. A generated type goes before a class that exists. -/
inductive Denotes (g : TypeGraph) : String → Referent → Prop
  | generated {id : TypeId} (hid : g.Has id) : Denotes g (g.qualifiedName id) (.generated id)
  | library {full : String} (hnone : ∀ id, g.Has id → g.qualifiedName id ≠ full) :
      Denotes g full (.library full)

inductive Supertype (g : TypeGraph) : TypeId → Referent → Prop
  | superclass {owner parent : TypeId} (hkind : (g.get owner).kind = .bean)
      (h : (g.get owner).supertype = some (.generated parent)) :
      Supertype g owner (.generated parent)
  | library {owner : TypeId} {name : String} (hkind : (g.get owner).kind = .bean)
      (h : (g.get owner).supertype = some (.library name)) : Supertype g owner (.library name)
  | interface {owner parent : TypeId} (hkind : (g.get owner).kind = .bean)
      (h : parent ∈ (g.get owner).interfaces) : Supertype g owner (.generated parent)
  | enum {owner : TypeId} (hkind : (g.get owner).kind = .enum) :
      Supertype g owner (.library "java.lang.Enum")

/-- The member types of a type, with their simple names: those declared in it, and those of its
supertypes unless it declares one of that name itself. -/
inductive MemberType (g : TypeGraph) (classpath : Classpath) : Referent → String → Referent → Prop
  | declared {owner inner : TypeId} (hinner : g.Has inner)
      (howner : (g.get inner).enclosing = some owner) :
      MemberType g classpath (.generated owner) (g.get inner).name (.generated inner)
  | inherited {owner : TypeId} {name : String} {parent type : Referent}
      (hfree : ∀ inner, g.Has inner → (g.get inner).enclosing = some owner →
        (g.get inner).name ≠ name)
      (hparent : Supertype g owner parent) (h : MemberType g classpath parent name type) :
      MemberType g classpath (.generated owner) name type
  | library {owner name full : String} {type : Referent}
      (h : classpath.member? owner name = some full) (htype : Denotes g full type) :
      MemberType g classpath (.library owner) name type

namespace Scope

variable (s : Scope)

def InFile (name : String) (type : Referent) : Prop :=
  ((s.graph.get s.top).name = name ∧ type = .generated s.top) ∨
    ∃ full ∈ s.imports, simpleName full = name ∧ Denotes s.graph full type

def Stands (full : String) (type : Referent) : Prop :=
  Denotes s.graph full type ∧ ∀ name, type = .library name → s.classpath.Has name

def InPackage (name : String) (type : Referent) : Prop :=
  s.Stands (TypeGraph.inPackage s.package name) type

def InLang (name : String) (type : Referent) : Prop := s.Stands ("java.lang." ++ name) type

def places (name : String) : List (Referent → Prop) :=
  (s.around.map fun owner => MemberType s.graph s.classpath (.generated owner) name) ++
    [s.InFile name, s.InPackage name, s.InLang name]

end Scope

/-- The first place that knows any type knows this one only. -/
inductive FirstOf (type : Referent) : List (Referent → Prop) → Prop
  | here {place : Referent → Prop} {rest : List (Referent → Prop)} (h : place type)
      (honly : ∀ other, place other → other = type) : FirstOf type (place :: rest)
  | later {place : Referent → Prop} {rest : List (Referent → Prop)} (hnone : ∀ other, ¬ place other)
      (h : FirstOf type rest) : FirstOf type (place :: rest)

def Scope.Means (s : Scope) (name : String) (type : Referent) : Prop := FirstOf type (s.places name)

inductive Scope.Resolves (s : Scope) : List String → Referent → Prop
  | simple {name : String} {type : Referent} (h : s.Means name type) : s.Resolves [name] type
  | member {names : List String} {name : String} {outer type : Referent}
      (h : s.Resolves names outer) (hmember : MemberType s.graph s.classpath outer name type)
      (honly : ∀ other, MemberType s.graph s.classpath outer name other → other = type) :
      s.Resolves (names ++ [name]) type

def nameParts (text : String) : List String := (Text.pieces '.' text.toList).map String.ofList

theorem firstOf_cons {type : Referent} {place : Referent → Prop} {rest : List (Referent → Prop)} :
    FirstOf type (place :: rest) ↔
      (∀ other, place other → other = type) ∧ (place type ∨ FirstOf type rest) := by
  constructor
  · rintro (⟨h, honly⟩ | ⟨hnone, h⟩)
    · exact ⟨honly, .inl h⟩
    · exact ⟨fun other hother => absurd hother (hnone other), .inr h⟩
  · rintro ⟨honly, h⟩
    by_cases hplace : place type
    · exact .here hplace honly
    · refine .later (fun other hother => ?_) (h.resolve_left hplace)
      rw [honly other hother] at hother
      exact hplace hother

theorem FirstOf.unique {places : List (Referent → Prop)} {type other : Referent}
    (h : FirstOf type places) (h' : FirstOf other places) : type = other := by
  induction h with
  | here htype honly =>
    cases h' with
    | here hother => exact (honly _ hother).symm
    | later hnone => exact absurd htype (hnone _)
  | later hnone _ ih =>
    cases h' with
    | here hother => exact absurd hother (hnone _)
    | later _ hrest => exact ih hrest

theorem firstOf_append {type : Referent} {before after : List (Referent → Prop)}
    (hbefore : ∀ place ∈ before, ∀ other, place other → other = type) (h : FirstOf type after) :
    FirstOf type (before ++ after) := by
  induction before with
  | nil => exact h
  | cons place rest ih =>
    refine firstOf_cons.mpr ⟨hbefore place List.mem_cons_self, .inr ?_⟩
    exact ih fun place hplace => hbefore place (List.mem_cons_of_mem _ hplace)

theorem FirstOf.of_append {type : Referent} {before after : List (Referent → Prop)}
    (h : FirstOf type (before ++ after)) (hnot : ∀ place ∈ before, ¬ place type) :
    (∀ place ∈ before, ∀ other, place other → other = type) ∧ FirstOf type after := by
  induction before with
  | nil => exact ⟨fun place hplace => absurd hplace List.not_mem_nil, h⟩
  | cons place rest ih =>
    obtain ⟨honly, h⟩ := firstOf_cons.mp h
    have h := h.resolve_left (hnot place List.mem_cons_self)
    obtain ⟨hrest, hafter⟩ := ih h fun place hplace => hnot place (List.mem_cons_of_mem _ hplace)
    refine ⟨fun place hplace => ?_, hafter⟩
    rcases List.mem_cons.mp hplace with rfl | hplace
    · exact honly
    · exact hrest place hplace

structure Scope.Unrivalled (s : Scope) (name : String) (type : Referent) : Prop where
  members : ∀ owner ∈ s.around, ∀ other,
    MemberType s.graph s.classpath (.generated owner) name other → other = type
  file : ∀ other, s.InFile name other → other = type
  package : ¬ s.InFile name type → ∀ other, s.InPackage name other → other = type
  lang : ¬ s.InFile name type → ¬ s.InPackage name type → ∀ other, s.InLang name other →
    other = type

section Rivals

variable {s : Scope} {name : String} {type : Referent}

theorem Scope.Unrivalled.means (h : s.Unrivalled name type)
    (hknown : s.InFile name type ∨ s.InPackage name type ∨ s.InLang name type) :
    s.Means name type := by
  refine firstOf_append (fun place hplace => ?_) (firstOf_cons.mpr ⟨h.file, ?_⟩)
  · obtain ⟨owner, howner, rfl⟩ := List.mem_map.mp hplace
    exact h.members owner howner
  · by_cases hfile : s.InFile name type
    · exact .inl hfile
    · refine .inr (firstOf_cons.mpr ⟨h.package hfile, ?_⟩)
      by_cases hpackage : s.InPackage name type
      · exact .inl hpackage
      · have hlang := (hknown.resolve_left hfile).resolve_left hpackage
        exact .inr (.here hlang (h.lang hfile hpackage))

theorem Scope.Unrivalled.of_means (h : s.Means name type)
    (hnot : ∀ owner ∈ s.around, ¬ MemberType s.graph s.classpath (.generated owner) name type) :
    s.Unrivalled name type := by
  obtain ⟨hmembers, h⟩ := FirstOf.of_append h fun place hplace => by
    obtain ⟨owner, howner, rfl⟩ := List.mem_map.mp hplace
    exact hnot owner howner
  obtain ⟨hfile, h⟩ := firstOf_cons.mp h
  refine ⟨fun owner howner => hmembers _ (List.mem_map_of_mem howner), hfile, fun hnot => ?_, ?_⟩
  · exact (firstOf_cons.mp (h.resolve_left hnot)).1
  · intro hnot hnot'
    have hlang := (firstOf_cons.mp (h.resolve_left hnot)).2.resolve_left hnot'
    exact (firstOf_cons.mp hlang).1

end Rivals

end SchemaBeans.Java
