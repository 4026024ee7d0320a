import SchemaBeans.Proofs.Generation.Filling
import SchemaBeans.Proofs.Generation.Standing

/-! # What a run asks for

A schema is asked for under a name and, where it stands inside a class, for a place in that
class. Who asks for what is settled by the documents and by the places that a run starts from: it
is the least relation that has the starts and is closed under what the rules hand on. The order
in which a run comes to its schemas has no part in it. -/
namespace SchemaBeans

structure Asking where
  name : String
  around : Option (String × String)
  deriving DecidableEq, Repr

namespace Asking

def own (place : Location) : Asking := ⟨place.name, none⟩

def reaching (asking : Asking) (place location : Location) : Asking :=
  if location = place then asking else own location

@[simp] theorem reaching_own (place location : Location) :
    (own place).reaching place location = own location := by
  unfold reaching
  split
  · rename_i h
    rw [h]
  · rfl

def named (settings : Settings) (asking : Asking) (k : Keywords) : String × String :=
  let slot := Drafting.slot settings {} ⟨asking.name, .topLevel⟩ k
  match k.javaType, asking.around with
  | none, some (package, outer) => (package, outer ++ "." ++ slot.name)
  | _, _ => (slot.package, TypeGraph.inPackage slot.package slot.name)

end Asking

def Request.asking (request : Request) (g : TypeGraph) : Asking where
  name := request.name
  around :=
    match request.placement with
    | .topLevel => none
    | .inside owner => some ((g.get owner).package, g.qualifiedName owner)

theorem Request.named_asking (settings : Settings) (g : TypeGraph) (request : Request)
    (k : Keywords) : (request.asking g).named settings k =
      ((Drafting.slot settings g request k).package,
        (Drafting.slot settings g request k).qualified g) := by
  obtain ⟨name, placement⟩ := request
  unfold Asking.named Request.asking Drafting.slot Drafting.Slot.qualified Drafting.rawName
  cases k.javaType with
  | some javaType =>
    simp only
    cases Text.cutLast '.' javaType.toList <;> rfl
  | none => cases placement <;> rfl

def SchemaNode.alone (schema : SchemaNode) : SchemaNode := { schema with parent := none }

namespace Library

open Drafting

/-- The schema at the end of the references from a place. -/
structure Stands (lib : Library) (place : Location) (schema : SchemaNode) : Prop
    extends schema.Read where
  finds : lib.Finds (.schema place schema.location schema.content)
  alone : schema.parent = none

variable {lib : Library} {settings : Settings} {starts : Location → Prop} {place : Location}
  {schema child : SchemaNode} {asking : Asking}

theorem Stands.unique (hkeys : lib.KeysOnce) (h : lib.Stands place schema)
    (k : lib.Stands place child) : schema = child := by
  obtain ⟨hlocation, hcontent⟩ := h.finds.sole hkeys _ _ k.finds
  have hread := h.keywords
  rw [hlocation, hcontent, k.keywords] at hread
  have hkeywords := Except.ok.inj hread
  have hshape := h.shape
  rw [← hkeywords, k.shape] at hshape
  have hparent := h.alone.trans k.alone.symm
  cases schema
  cases child
  simp_all

theorem Stands.self (h : lib.Stands place schema) : lib.Stands schema.location schema where
  toRead := h.toRead
  finds := .plain h.finds.settled.1 h.keywords h.plain
  alone := h.alone

inductive GeneratesAs (lib : Library) (schema : SchemaNode) : Shape → Prop
  | own (h : schema.shape ≠ .allOf) : GeneratesAs lib schema schema.shape
  | merged {made : SchemaNode} (h : schema.shape = .allOf)
      (hmade : lib.Stands (schema.location.below ["allOf"]) made) :
      GeneratesAs lib schema made.shape

def branchPlace (schema : SchemaNode) (index : Nat) : Location :=
  schema.location.below [(branchList schema.keywords).1, toString index]

def Alternatives (lib : Library) (schema : SchemaNode) (found : List (Location × SchemaNode)) :
    Prop :=
  ∃ all, List.Forall₂ (fun index (branch : Location × SchemaNode) =>
      branch.1 = branchPlace schema index ∧ lib.Stands branch.1 branch.2)
      (List.range (branchList schema.keywords).2) all ∧
    found = all.filter fun branch => decide (branch.2.shape ≠ .primitive .null)

def ownKind? (k : Keywords) (shapes : List Shape) : Option TypeKind :=
  match shapes, k.hasProperties || k.family.isSome with
  | [_], false => none
  | _, _ =>
    if (!shapes.isEmpty && shapes.all (· == .object)) = false then none
    else some (if k.hasProperties then .bean else .interface)

theorem ownKind?_eq {k : Keywords} {found : List Store.Child} {shapes : List Shape}
    (hlength : found.length = shapes.length) : ownKind? k shapes = marker? k found shapes := by
  unfold ownKind? marker?
  rcases found with - | ⟨a, - | ⟨b, found⟩⟩ <;> rcases shapes with - | ⟨x, - | ⟨y, shapes⟩⟩
  · rfl
  · cases hlength
  · cases hlength
  · cases hlength
  · cases k.hasProperties || k.family.isSome <;> rfl
  · simp at hlength
  · cases hlength
  · simp at hlength
  · rfl

/-- The kind of type that is declared for a schema. -/
inductive Declares (lib : Library) (schema : SchemaNode) : TypeKind → Prop
  | object (hshape : schema.shape = .object) : Declares lib schema .bean
  | enumeration (hshape : schema.shape = .enumeration) : Declares lib schema .enum
  | union {found : List (Location × SchemaNode)} {shapes : List Shape} {kind : TypeKind}
      (hshape : schema.shape = .union) (hfound : lib.Alternatives schema found)
      (hshapes : List.Forall₂ (fun branch shape => lib.GeneratesAs branch.2 shape) found shapes)
      (hkind : ownKind? schema.keywords shapes = some kind) : Declares lib schema kind

def branchAsking (k : Keywords) (count index : Nat) (asking : Asking) : Asking :=
  if count = 1 ∧ (k.hasProperties || k.family.isSome) = false then asking
  else { asking with name := asking.name ++ "Option" ++ toString index }

/-- The places that a schema hands on, and how it asks for what is there. -/
inductive Hands (settings : Settings) (lib : Library) (schema : SchemaNode) (asking : Asking) :
    Location → Asking → Prop
  | superclass (hkind : lib.Declares schema .bean)
      (hsuper : schema.keywords.superclass.isSome = true) :
      Hands settings lib schema asking (schema.location.below ["extends"])
        ⟨asking.name ++ "Parent", none⟩
  | property {key : String} (hkind : lib.Declares schema .bean)
      (hkey : key ∈ memberKeys schema.keywords) :
      Hands settings lib schema asking (schema.location.below ["properties", key])
        ⟨key, some (asking.named settings schema.keywords)⟩
  | additional (hkind : lib.Declares schema .bean)
      (henabled : settings.additionalPropertiesEnabled = true)
      (htyped : typedExtension schema.keywords = true) :
      Hands settings lib schema asking (schema.location.below ["additionalProperties"])
        ⟨asking.name ++ "Property", some (asking.named settings schema.keywords)⟩
  | family {kind : TypeKind} {place : Location} (hkind : lib.Declares schema kind)
      (hne : kind ≠ .enum) (hplace : ChildPlace settings schema place) :
      Hands settings lib schema asking place (.own place)
  | items (hshape : schema.shape = .array) (htyped : untypedItems schema.keywords = false) :
      Hands settings lib schema asking (schema.location.below ["items"])
        { asking with name := Names.singularize asking.name }
  | branch {found : List (Location × SchemaNode)} {index : Nat} {entry : Location × SchemaNode}
      (hshape : schema.shape = .union) (hfound : lib.Alternatives schema found)
      (hentry : found[index]? = some entry) :
      Hands settings lib schema asking entry.1
        (branchAsking schema.keywords found.length index asking)

/-- The schemas that a run comes to from its starts, each with a way in which it is asked for. A
schema that names an existing class hands nothing on. -/
inductive Asked (settings : Settings) (lib : Library) (starts : Location → Prop) :
    SchemaNode → Asking → Prop
  | start {place : Location} {schema : SchemaNode} (hplace : starts place)
      (hschema : lib.Stands place schema) :
      Asked settings lib starts schema (.own schema.location)
  | merged {schema made : SchemaNode} {asking : Asking}
      (h : Asked settings lib starts schema asking) (hlib : library? schema = none)
      (hshape : schema.shape = .allOf)
      (hmade : lib.Stands (schema.location.below ["allOf"]) made) :
      Asked settings lib starts made asking
  | handed {schema child : SchemaNode} {asking inner : Asking} {place : Location}
      (h : Asked settings lib starts schema asking) (hlib : library? schema = none)
      (hhands : Hands settings lib schema asking place inner)
      (hchild : lib.Stands place child) :
      Asked settings lib starts child (inner.reaching place child.location)

theorem Asked.stands (h : Asked settings lib starts schema asking) :
    lib.Stands schema.location schema := by
  cases h with
  | start _ hschema => exact hschema.self
  | merged _ _ _ hmade => exact hmade.self
  | handed _ _ _ hchild => exact hchild.self

def NamedOnce (settings : Settings) (lib : Library) (starts : Location → Prop) (place : Location) :
    Prop :=
  ∀ schema a b, schema.location = place → Asked settings lib starts schema a →
    Asked settings lib starts schema b →
      a.named settings schema.keywords = b.named settings schema.keywords

end Library

end SchemaBeans
