import Mathlib.Data.Set.Basic
import SchemaBeans.Java.SourceFile
import SchemaBeans.Proofs.Java.Scope

/-! # The imports of a source file

Whoever writes the name of a type asks for its import. A file imports the types that its
declarations name, wherever they are named, and besides them only classes that the written code
uses. -/
namespace SchemaBeans

open Java (Referent)

/-- The types that a type is written with, unless it is written with type arguments of its own. -/
def TypeRef.named : TypeRef → List Referent
  | .generated id => [.generated id]
  | .library name => if name.toList.contains '<' then [] else [.library name]
  | .list element => element.named
  | .set element => element.named
  | .any | .string | .scalar _ _ => []

def Directive.named : Directive → List Referent
  | .subTypes children => children.map fun child => .generated child.1
  | _ => []

namespace Java

variable {α β : Type} {sheet : Sheet} {most : Set String}

def Sheet.namedOn (sheet : Sheet) (target : Target) : List Referent :=
  (sheet.decorations.on target).flatMap Directive.named

def Sheet.headNames (sheet : Sheet) (id : TypeId) : List Referent :=
  let decl := sheet.graph.get id
  sheet.namedOn (.type id) ++
    if decl.kind = .bean then
      decl.supertype.toList.flatMap TypeRef.named ++ decl.interfaces.map .generated
    else []

/-- The types named in the body of a declaration, ahead of the declarations nested in it. -/
def Sheet.bodyNames (sheet : Sheet) (id : TypeId) : List Referent :=
  let decl := sheet.graph.get id
  match decl.kind with
  | .bean =>
    (decl.properties.zipIdx.flatMap fun (property, i) =>
      sheet.namedOn (.property id i) ++ property.type.named) ++
      decl.additionalProperties.toList.flatMap TypeRef.named
  | .enum =>
    decl.enumValueType.named ++
      decl.constants.zipIdx.flatMap fun (_, i) => sheet.namedOn (.constant id i)
  | .interface => []

/-- The types named in a declaration, ahead of the declarations nested in it. -/
def Sheet.names (sheet : Sheet) (id : TypeId) : List Referent :=
  sheet.headNames id ++ sheet.bodyNames id

def write (sheet : Sheet) : Referent → Importing String
  | .generated id => generatedName sheet id
  | .library name => libraryName sheet name

/-- The full name that a type is imported under, if it has to be. -/
def Sheet.imported? (sheet : Sheet) : Referent → Option String
  | .generated id =>
    let outer := sheet.graph.outermost id
    let package := (sheet.graph.get outer).package
    if !package.isEmpty && package != sheet.package then some (sheet.graph.qualifiedName outer)
    else none
  | .library name =>
    if name.toList.contains '<' then none
    else
      match Text.cutLast '.' name.toList with
      | none => none
      | some (package, _) =>
        if String.ofList package ≠ "java.lang" ∧ String.ofList package ≠
          sheet.package then some name
        else none

def Sheet.spelled (sheet : Sheet) : Referent → String
  | .generated id => sheet.graph.binaryName id
  | .library name => if name.toList.contains '<' then name else simpleName name

theorem write_run (sheet : Sheet) (type : Referent) (before : List String) :
    (write sheet type).run before =
      (sheet.spelled type, (sheet.imported? type).toList ++ before) := by
  cases type with
  | generated id =>
    simp only [write, generatedName, Sheet.imported?, Sheet.spelled]
    split <;> rfl
  | library name =>
    simp only [write, libraryName, Sheet.imported?, Sheet.spelled, simpleName]
    split
    · rfl
    · cases Text.cutLast '.' name.toList with
      | none => rfl
      | some cut =>
        obtain ⟨package, simple⟩ := cut
        dsimp only
        split <;> rfl

def collectionNames : List String :=
  ["List", "Set", "ArrayList", "LinkedHashSet", "Arrays", "Map", "LinkedHashMap", "HashMap",
    "Objects"]

def jacksonNames : List String :=
  ["JsonProperty", "JsonPropertyOrder", "JsonInclude", "JsonTypeInfo", "JsonSubTypes",
    "JsonTypeName", "JsonIgnore", "JsonAnyGetter", "JsonAnySetter", "JsonValue", "JsonCreator"]

def validationNames : List String :=
  ["DecimalMin", "DecimalMax", "Size", "Pattern", "NotNull", "Valid"]

def validationPackage (jakarta : Bool) (name : String) : String :=
  (if jakarta then "jakarta" else "javax") ++ "." ++
    if name = "Valid" then "validation" else "validation.constraints"

/-- The classes that may be imported without a type of the schemas, each with its package. -/
def helperParts (jakarta : Bool) : List (String × String) :=
  collectionNames.map (("java.util", ·)) ++
    jacksonNames.map (("com.fasterxml.jackson.annotation", ·)) ++
    [("com.google.gson.annotations", "SerializedName"), ("com.google.gson.annotations", "Expose"),
      ("com.squareup.moshi", "Json")] ++
    validationNames.map fun name => (validationPackage jakarta name, name)

def helperClasses (jakarta : Bool) : List String :=
  (helperParts jakarta).map fun part => part.1 ++ "." ++ part.2

theorem simpleName_append (package : String) {name : String} (h : '.' ∉ name.toList) :
    simpleName (package ++ "." ++ name) = name := by
  have hcut : Text.cutLast '.' (package ++ "." ++ name).toList =
      some (package.toList, name.toList) := by
    rw [String.toList_append, String.toList_append, List.append_assoc]
    exact Text.cutLast_append h package.toList
  rw [simpleName, hcut]
  exact String.ofList_toList

theorem helperClasses_distinct (jakarta : Bool) :
    ((helperClasses jakarta).map simpleName).Nodup := by
  have hnames : (helperClasses jakarta).map simpleName = (helperParts jakarta).map (·.2) := by
    have hdots : ∀ jakarta, ∀ part ∈ helperParts jakarta, '.' ∉ part.2.toList := by decide +kernel
    rw [helperClasses, List.map_map]
    exact List.map_congr_left fun part hpart => simpleName_append part.1 (hdots jakarta part hpart)
  have hparts : ∀ jakarta, ((helperParts jakarta).map (·.2)).Nodup := by decide +kernel
  rw [hnames]
  exact hparts jakarta

/-- A piece of source that writes the types imports what they need, and otherwise only classes of a
given set. It takes back no import. -/
structure Writes (sheet : Sheet) (most : Set String) (x : Importing α) (types : List Referent) :
    Prop where
  keeps : ∀ before, ∀ full ∈ before, full ∈ (x.run before).2
  imports : ∀ before, ∀ type ∈ types, ∀ full, sheet.imported? type = some full →
    full ∈ (x.run before).2
  only : ∀ before, ∀ full ∈ (x.run before).2, full ∈ before ∨ full ∈ most

theorem Writes.pure (a : α) : Writes sheet most (pure a) [] :=
  ⟨fun _ _ h => h, fun _ _ h => absurd h List.not_mem_nil, fun _ _ h => .inl h⟩

theorem Writes.need {name : String} (h : name ∈ most) : Writes sheet most (need name) [] := by
  refine ⟨fun _ _ => List.mem_cons_of_mem _, fun _ _ h => absurd h List.not_mem_nil, ?_⟩
  intro before full hfull
  rcases List.mem_cons.mp hfull with rfl | hbefore
  · exact .inr h
  · exact .inl hbefore

theorem Writes.bind {x : Importing α} {f : α → Importing β} {types more : List Referent}
    (hx : Writes sheet most x types) (hf : ∀ a, Writes sheet most (f a) more) :
    Writes sheet most (x >>= f) (types ++ more) := by
  constructor
  · exact fun before full h => (hf _).keeps _ _ (hx.keeps before full h)
  · intro before type htype full hfull
    rcases List.mem_append.mp htype with htype | htype
    · exact (hf _).keeps _ _ (hx.imports before type htype full hfull)
    · exact (hf _).imports _ type htype full hfull
  · intro before full h
    rcases (hf _).only _ full h with h | h
    · exact hx.only before full h
    · exact .inr h

theorem Writes.fewer {x : Importing α} {types fewer : List Referent}
    (hx : Writes sheet most x types) (h : fewer ⊆ types) : Writes sheet most x fewer :=
  ⟨hx.keeps, fun before type htype => hx.imports before type (h htype), hx.only⟩

theorem Writes.none {x : Importing α} {types : List Referent} (hx : Writes sheet most x types) :
    Writes sheet most x [] := hx.fewer (List.nil_subset _)

theorem Writes.after {x : Importing α} {f : α → Importing β} {types : List Referent}
    (hx : Writes sheet most x []) (hf : ∀ a, Writes sheet most (f a) types) :
    Writes sheet most (x >>= f) types := hx.bind hf

theorem Writes.before {x : Importing α} {f : α → Importing β} {types : List Referent}
    (hx : Writes sheet most x types) (hf : ∀ a, Writes sheet most (f a) []) :
    Writes sheet most (x >>= f) types := by
  have h := hx.bind hf
  rwa [List.append_nil] at h

theorem Writes.ite {c : Prop} [Decidable c] {x y : Importing α} {types : List Referent}
    (hx : Writes sheet most x types) (hy : Writes sheet most y types) :
    Writes sheet most (if c then x else y) types := by
  split
  · exact hx
  · exact hy

theorem Writes.mapM {f : α → Importing β} {types : α → List Referent} {xs : List α}
    (h : ∀ a ∈ xs, Writes sheet most (f a) (types a)) :
    Writes sheet most (xs.mapM f) (xs.flatMap types) := by
  induction xs with
  | nil => exact Writes.pure []
  | cons x xs ih =>
    rw [List.mapM_cons, List.flatMap_cons]
    refine (h x List.mem_cons_self).bind fun _ => Writes.before ?_ fun _ => Writes.pure _
    exact ih fun a ha => h a (List.mem_cons_of_mem _ ha)

section Helpers

variable (hhelp : ∀ full ∈ helperClasses sheet.settings.useJakartaValidation, full ∈ most)

include hhelp

theorem need_writes (package name : String)
    (h : (package, name) ∈ helperParts sheet.settings.useJakartaValidation) :
    Writes sheet most (need (package ++ "." ++ name)) [] :=
  .need (hhelp _ (List.mem_map.mpr ⟨_, h, rfl⟩))

theorem collection_writes (name : String) (h : name ∈ collectionNames) :
    Writes sheet most (need ("java.util." ++ name)) [] := by
  have hparts : ("java.util", name) ∈ helperParts sheet.settings.useJakartaValidation := by
    simp [helperParts, h]
  exact need_writes hhelp _ _ hparts

theorem jackson_writes (name : String) (h : name ∈ jacksonNames) :
    Writes sheet most (jackson name) [] := by
  have hparts : ("com.fasterxml.jackson.annotation", name) ∈
      helperParts sheet.settings.useJakartaValidation := by simp [helperParts, h]
  exact (need_writes hhelp _ _ hparts).after fun _ => .pure _

theorem validation_writes (name : String) (h : name ∈ validationNames) :
    Writes sheet most (validation sheet name) [] := by
  have hparts : (validationPackage sheet.settings.useJakartaValidation name, name) ∈
      helperParts sheet.settings.useJakartaValidation := by
    simp only [helperParts, List.mem_append, List.mem_map]
    exact .inr ⟨name, h, rfl⟩
  exact (need_writes hhelp _ _ hparts).after fun _ => .pure _

end Helpers

end Java

end SchemaBeans
