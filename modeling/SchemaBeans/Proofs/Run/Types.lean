import Mathlib.Tactic.MkIffOfInductiveProp
import SchemaBeans.Proofs.Run.Steps

/-! # The types of a run

In every state the types and the names given away agree. After steps that all succeed no type is
left half built: each class has the properties of its schema and each enum has its literals. -/
namespace SchemaBeans.Run

open Drafting

variable {ctx : Context} {d : Draft} {steps : List Step}

/-- The registry holds exactly the names of the types, each with the type and its place. A type is
the one at its place, its name and its place are its own, and it is found by its name. -/
theorem registry_agrees (h : Reaches ctx {} steps d) :
    (∀ name id place, d.registry.slots.lookup name = some (id, place) ↔
      d.graph.Has id ∧ d.graph.qualifiedName id = name ∧ (d.graph.get id).place = place) ∧
    (∀ place id,
      d.graph.typeAt? place = some id ↔ d.graph.Has id ∧ (d.graph.get id).place = place) ∧
    (∀ a b, d.graph.Has a → d.graph.Has b →
      d.graph.qualifiedName a = d.graph.qualifiedName b → a = b) ∧
    (∀ a b, d.graph.Has a → d.graph.Has b → (d.graph.get a).place = (d.graph.get b).place → a = b) ∧
    ∀ id, d.graph.Has id → d.graph.find? (d.graph.qualifiedName id) = some id := by
  have hd := h.consistent consistent_empty
  refine ⟨hd.named, hd.placed, hd.named.distinct, fun _ _ => hd.placed.unique, fun id hid => ?_⟩
  exact TypeGraph.find?_qualifiedName hid fun other hother hname =>
    hd.named.distinct other id hother hid hname

-- A record that refers to itself and has an enum.
private def shapeContext : Context := ⟨{}, ⟨[], []⟩⟩

private def shapeSchema : Json :=
  .object [("type", .string "object"), ("required", .array [.string "color"]),
    ("properties", .object [("color", .object [("enum", .array [.string "red", .null])]),
      ("next", .object [("$ref", .string "#")])])]

private def shapeSteps : List Step :=
  [.register "mem:///shape.json" shapeSchema, .generate (.root "mem:///shape.json")]

private def shapeStart : Draft := { store := ({} : Store).register "mem:///shape.json" shapeSchema }

private def shapeDraft : Draft :=
  ((Step.generate (.root "mem:///shape.json")).action shapeContext |>.run shapeStart).2

@[mk_iff] private structure ShapeOutcome : Prop where
  answer : ((Step.generate (.root "mem:///shape.json")).action shapeContext |>.run
    shapeStart).1.toOption = some ()
  size : shapeDraft.graph.size = 2
  kind : (shapeDraft.graph.get ⟨0⟩).kind = .bean
  required : (shapeDraft.store.id? (shapeDraft.graph.get ⟨0⟩).place).map (fun id =>
    (shapeDraft.store.node id).keywords.requiredKeys) = some ["color"]
  properties : (shapeDraft.graph.get ⟨0⟩).properties.map (fun p => (p.key, p.required, p.type)) =
    [("color", true, .generated ⟨1⟩), ("next", false, .generated ⟨0⟩)]
  enum : (shapeDraft.graph.get ⟨1⟩).kind = .enum
  literals : (shapeDraft.graph.get ⟨1⟩).constants.map (·.value.text) = ["\"red\""]

private theorem shape_outcome : ShapeOutcome :=
  shapeOutcome_iff.mpr (by decide +kernel)

private theorem shape_succeeds : Succeeds shapeContext {} shapeSteps shapeDraft :=
  .step rfl (.of_run _ shape_outcome.answer (.done _))

private theorem shape_has {i : Nat} (h : i < 2) : shapeDraft.graph.Has ⟨i⟩ := by
  rw [TypeGraph.Has, shape_outcome.size]
  exact h

theorem registry_agrees_shape : shapeDraft.graph.Has ⟨1⟩ ∧
    shapeDraft.graph.find? (shapeDraft.graph.qualifiedName ⟨1⟩) = some ⟨1⟩ := by
  have hcolor := shape_has Nat.one_lt_two
  exact ⟨hcolor, (registry_agrees shape_succeeds.reaches).2.2.2.2 ⟨1⟩ hcolor⟩

/-- The class says what its schema says: the keys in order, under distinct field names, and for each
key the property of the schema found there, with the type that this schema generates. A property is
required if its key is listed or its own schema says so. -/
structure Mirrors (ctx : Context) (d : Draft) (id : NodeId) (decl : TypeDecl) : Prop where
  keys : decl.properties.map (·.key) = memberKeys (d.store.node id).keywords
  properties : ∀ p ∈ decl.properties, ∃ found, d.store.Found id ["properties", p.key] found ∧
    (p.required = true ↔ p.key ∈ (d.store.node id).keywords.requiredKeys ∨
      (d.store.node found.id).keywords.requiredFlag = true) ∧
    p = propertyOf ctx.settings (d.store.node id).keywords.requiredKeys p.key
      (d.store.node found.id).keywords p.type ∧
    ∀ request, (dispatch ctx (depth ctx d) request found.id).run d = (.ok p.type, d)
  distinct : (decl.properties.map (·.name)).Nodup

theorem describes_of_populated {k : Nat} {id : NodeId} {keys : List String}
    {properties : List Property} {p : Property} (h : Populated ctx d k id keys properties)
    (hp : p ∈ properties) : Describes ctx d k id p.key p := by
  have hall : ∀ p ∈ properties, ∃ key, Describes ctx d k id key p :=
    forall_mem_of_forall₂ (fun key _ hp => ⟨key, hp⟩) h.described
  obtain ⟨key, hdescribes⟩ := hall p hp
  rwa [hdescribes.key]

theorem mirrors_of_populated (hd : Consistent d) {id : NodeId} {decl : TypeDecl}
    (h : Populated ctx d (depth ctx d) id (memberKeys (d.store.node id).keywords) decl.properties) :
    Mirrors ctx d id decl := by
  have hkeys : ∀ {keys : List String} {properties : List Property},
      List.Forall₂ (Describes ctx d (depth ctx d) id) keys properties → properties.map (·.key) =
        keys := by
    intro keys properties hall
    induction hall with
    | nil => rfl
    | cons hp _ ih => rw [List.map_cons, hp.key, ih]
  refine ⟨hkeys h.described, fun p hp => ?_, h.distinct⟩
  obtain ⟨found, hfound, heq, ht⟩ := describes_of_populated h hp
  have hrequired : p.required = ((d.store.node id).keywords.requiredKeys.contains p.key ||
      (d.store.node found.id).keywords.requiredFlag) :=
    (congrArg Property.required heq).trans (propertyOf_required _ _ _ _ _)
  refine ⟨found, hfound, ?_, heq, fun request => ?_⟩
  · rw [hrequired, Bool.or_eq_true, List.contains_iff_mem]
  exact ht.repeats hd.store hd.placed hd.declared (hfound.has hd.store) request (Nat.le_refl _)

theorem Succeeds.populated (h : Succeeds ctx {} steps d) {type : TypeId} (htype : d.graph.Has type)
    (hkind : (d.graph.get type).kind = .bean) :
    ∃ id, d.store.id? (d.graph.get type).place = some id ∧ Populated ctx d (depth ctx d) id
      (memberKeys (d.store.node id).keywords) (d.graph.get type).properties := by
  have hfilled := h.filled consistent_empty fun type htype _ => by
    simp [TypeGraph.Has, TypeGraph.size] at htype
  obtain ⟨id, hid, hcomplete⟩ := hfilled type htype (Nat.zero_le _)
  unfold CompleteDecl at hcomplete
  rw [hkind] at hcomplete
  exact ⟨id, hid, hcomplete⟩

/-- After steps that all succeed, every type says what the schema of its place says. -/
theorem types_complete (h : Succeeds ctx {} steps d) (type : TypeId) (htype : d.graph.Has type) :
    ∃ id, d.store.id? (d.graph.get type).place = some id ∧
      (d.store.node id).location = (d.graph.get type).place ∧
      ((d.graph.get type).kind = .bean → Mirrors ctx d id (d.graph.get type)) ∧
      ((d.graph.get type).kind = .enum →
        (d.graph.get type).constants.map (·.value) = enumLiterals (d.store.node id).keywords) := by
  have hd := h.reaches.consistent consistent_empty
  have hfilled := h.filled consistent_empty fun type htype _ => by
    simp [TypeGraph.Has, TypeGraph.size] at htype
  obtain ⟨id, hid, hcomplete⟩ := hfilled type htype (Nat.zero_le _)
  obtain ⟨maker, hmaker, hplace, -⟩ := hd.declared type htype
  rw [hid] at hmaker
  obtain rfl := Option.some.inj hmaker
  unfold CompleteDecl at hcomplete
  refine ⟨id, hid, hplace, fun hkind => ?_, fun hkind => ?_⟩
  · rw [hkind] at hcomplete
    exact mirrors_of_populated hd hcomplete
  · rw [hkind] at hcomplete
    exact hcomplete

/-- The key of the enum is required, the one that leads back to the record is not, and null is no
constant of the enum. -/
theorem types_complete_shape : ∃ id enum,
    shapeDraft.store.id? (shapeDraft.graph.get ⟨0⟩).place = some id ∧
      Mirrors shapeContext shapeDraft id (shapeDraft.graph.get ⟨0⟩) ∧
      (shapeDraft.store.node id).keywords.requiredKeys = ["color"] ∧
      (shapeDraft.graph.get ⟨0⟩).properties.map (fun p => (p.key, p.required, p.type)) =
        [("color", true, .generated ⟨1⟩), ("next", false, .generated ⟨0⟩)] ∧
      shapeDraft.store.id? (shapeDraft.graph.get ⟨1⟩).place = some enum ∧
      (shapeDraft.graph.get ⟨1⟩).constants.map (·.value) =
        enumLiterals (shapeDraft.store.node enum).keywords ∧
      (shapeDraft.graph.get ⟨1⟩).constants.map (·.value.text) = ["\"red\""] := by
  obtain ⟨id, hid, -, hmirrors, -⟩ := types_complete shape_succeeds ⟨0⟩ (shape_has Nat.two_pos)
  obtain ⟨enum, henum, -, -, hconstants⟩ :=
    types_complete shape_succeeds ⟨1⟩ (shape_has Nat.one_lt_two)
  have hrequired := shape_outcome.required
  rw [hid] at hrequired
  exact ⟨id, enum, hid, hmirrors shape_outcome.kind, Option.some.inj hrequired,
    shape_outcome.properties, henum, hconstants shape_outcome.enum, shape_outcome.literals⟩

end SchemaBeans.Run
