import Mathlib.Tactic.MkIffOfInductiveProp
import SchemaBeans.Proofs.Decoration.Validation
import SchemaBeans.Proofs.Discriminator.Retention
import SchemaBeans.Proofs.Run.Accumulation
import SchemaBeans.Proofs.Run.Inheritance
import SchemaBeans.Proofs.Run.Stability
import SchemaBeans.Proofs.Run.Types

/-! # Bounds of merged classes

The class of a merged schema has one bound on each side of a property, the one that is left of those
that the members and the schema itself state for it, and an integer is reported exactly if it is
beyond this bound or one of a superclass. A later member that states a weaker bound takes the place
of an earlier one, so what the earlier one excludes may go unreported. -/
namespace SchemaBeans

open Check (Side)
open Json (Assembled Stated Tabular declarations declared)

def Json.BoundsFit (v : Json) : Prop :=
  ∀ (side : Side) (n : JsonNumber), v.member? side.inclusive = some (.number n) ∨
    v.member? side.exclusive = some (.number n) → n.Fits

namespace Bound

variable {side : Side} {all : List Json} {b : Bound} {name : String} {v : Json}

theorem stated_of_lastUnder (h : Json.lastUnder name all = some v) :
    ∃ x ∈ all, x.member? name = some v :=
  List.mem_filterMap.mp (List.mem_of_getLast? h)

theorem left_stated (h : left side all = some b) :
    ∃ x ∈ all, x.member? side.inclusive = some (.number b.value) ∨
      x.member? side.exclusive = some (.number b.value) := by
  have hinclusive : ∀ n, (Json.lastUnder side.inclusive all).bind Json.number? = some n →
      ∃ x ∈ all, x.member? side.inclusive = some (.number n) := by
    intro n hn
    obtain ⟨v, hv, hread⟩ := Option.bind_eq_some_iff.mp hn
    cases v with
    | number m =>
      cases hread
      exact stated_of_lastUnder hv
    | _ => cases hread
  have hflag : ∀ flag : Bool, ((Json.lastUnder side.inclusive all).bind Json.number?).map
      (fun n => (⟨n, flag⟩ : Bound)) = some b →
      ∃ x ∈ all, x.member? side.inclusive = some (.number b.value) := by
    intro flag hmap
    obtain ⟨n, hn, rfl⟩ := Option.map_eq_some_iff.mp hmap
    exact hinclusive n hn
  unfold left ofKeywords at h
  split at h
  · rename_i limit hlimit
    cases h
    obtain ⟨v, hv, hread⟩ := Option.bind_eq_some_iff.mp hlimit
    cases v with
    | number m =>
      cases hread
      obtain ⟨x, hx, hstated⟩ := stated_of_lastUnder hv
      exact ⟨x, hx, .inr hstated⟩
    | _ => cases hread
  · obtain ⟨x, hx, hstated⟩ := hflag _ h
    exact ⟨x, hx, .inl hstated⟩
  · obtain ⟨x, hx, hstated⟩ := hflag _ h
    exact ⟨x, hx, .inl hstated⟩

theorem left_fits (hall : ∀ x ∈ all, x.BoundsFit) (h : left side all = some b) : b.value.Fits := by
  obtain ⟨x, hx, hstated⟩ := left_stated h
  exact hall x hx side b.value hstated

def NoStronger (side : Side) (a b : Bound) : Prop := ∀ x : ℚ, a.Excludes side x → b.Excludes side x

/-- None of the schemas states a bound of its own that is stronger than the one that is left. -/
def Kept (side : Side) (all : List Json) : Prop :=
  ∀ x ∈ all, ∀ own, left side [x] = some own → ∃ b, left side all = some b ∧ NoStronger side own b

def limit? (side : Side) (v : Json) : Option JsonNumber :=
  (v.member? side.inclusive).bind Json.number?

/-- The schema states an inclusive bound by a number, if it states a bound. -/
structure Plain (side : Side) (v : Json) : Prop where
  inclusive : ∀ x, v.member? side.inclusive = some x → ∃ n, x = .number n
  exclusive : v.member? side.exclusive = none

theorem left_of_plain (hplain : ∀ v ∈ all, Plain side v) :
    left side all = (all.filterMap (limit? side)).getLast?.map (⟨·, false⟩) := by
  have hexclusive : Json.lastUnder side.exclusive all = none := by
    rw [Json.lastUnder, List.filterMap_eq_nil_iff.mpr fun v hv => (hplain v hv).exclusive]
    rfl
  have hinclusive : all.filterMap (·.member? side.inclusive) =
      (all.filterMap (limit? side)).map .number := by
    rw [List.map_filterMap]
    refine List.filterMap_congr fun v hv => ?_
    unfold limit?
    cases hstated : v.member? side.inclusive with
    | none => rfl
    | some x =>
      obtain ⟨n, rfl⟩ := (hplain v hv).inclusive x hstated
      rfl
  unfold left
  rw [hexclusive, Json.lastUnder, hinclusive, List.getLast?_map]
  cases (all.filterMap (limit? side)).getLast? <;> rfl

theorem kept_of_rising (hplain : ∀ v ∈ all, Plain side v)
    (hrising : (all.filterMap (limit? side)).Pairwise fun n m =>
      NoStronger side ⟨n, false⟩ ⟨m, false⟩) : Kept side all := by
  intro x hx own hown
  have hone : ∀ v ∈ [x], Plain side v := by
    rw [List.forall_mem_singleton]
    exact hplain x hx
  rw [left_of_plain hone] at hown
  obtain ⟨n, hn, rfl⟩ := Option.map_eq_some_iff.mp hown
  have hlimit : n ∈ all.filterMap (limit? side) := by
    obtain ⟨v, hv, hstated⟩ := List.mem_filterMap.mp (List.mem_of_getLast? hn)
    exact List.mem_filterMap.mpr ⟨v, List.mem_singleton.mp hv ▸ hx, hstated⟩
  have hne := List.ne_nil_of_mem hlimit
  have : Std.Refl fun n m : JsonNumber => NoStronger side ⟨n, false⟩ ⟨m, false⟩ :=
    ⟨fun _ _ h => h⟩
  refine ⟨⟨_, false⟩, ?_, hrising.rel_getLast hlimit⟩
  rw [left_of_plain hplain, List.getLast?_eq_some_getLast hne]
  rfl

end Bound

namespace Run

open Drafting

variable {ctx : Context} {full : Library} {d : Draft} {steps : List Step} {place : Location}
  {id made : NodeId} {type : TypeId} {parts : List Json} {key : String} {m : Model} {side : Side}

/-- The schema at the place has members that are merged into an object, and it generates as the
class of this object. -/
structure MergedClass (ctx : Context) (d : Draft) (place : Location) (id made : NodeId)
    (type : TypeId) : Prop where
  known : d.store.id? place = some id
  members : (d.store.node id).shape = .allOf
  merged : d.store.id? ((d.store.node id).location.below ["allOf"]) = some made
  object : (d.store.node made).shape = .object
  again : (generate ctx place).run d = (.ok (.generated type), d)

theorem no_type_of_members (hd : Consistent d) (hid : d.store.Has id)
    (hshape : (d.store.node id).shape = .allOf) :
    d.graph.typeAt? (d.store.node id).location ≠ some type := by
  intro htype
  obtain ⟨hhas, hplace⟩ := TypeGraph.typeAt?_some hd.placed htype
  obtain ⟨owner, howner, -, -, hmakes⟩ := hd.declared type hhas
  rw [hplace, hd.store.own hid] at howner
  obtain rfl := Option.some.inj howner
  generalize (d.graph.get type).kind = kind at hmakes
  cases hmakes <;> simp_all

theorem Settles.typed_object {k : Nat} (hshape : (d.store.node id).shape = .object)
    (h : Settles ctx d k id (.generated type)) :
    d.graph.typeAt? (d.store.node id).location = some type := by
  cases k with
  | zero => exact h.elim
  | succ k =>
    generalize ht : TypeRef.generated type = t at h
    cases h with
    | typed htype =>
      cases ht
      exact htype
    | library => cases ht
    | _ => simp_all

theorem MergedClass.typed (hd : Consistent d) (h : MergedClass ctx d place id made type) :
    (∃ barred k, Merges d.store barred k id made) ∧
      d.graph.typeAt? (d.store.node made).location = some type := by
  obtain ⟨-, ⟨found, k, hfound, -, hsettles⟩, -⟩ := (generate_acts hd place).success h.again
  obtain rfl := Option.some.inj (hfound.symm.trans h.known)
  have hid := hd.store.bound h.known
  have hshape := h.members
  cases k with
  | zero => exact hsettles.elim
  | succ k =>
    generalize ht : TypeRef.generated type = t at hsettles
    cases hsettles with
    | typed htype => exact absurd htype (no_type_of_members hd hid hshape)
    | library => cases ht
    | allOf _ _ hmerge hbelow =>
      obtain rfl := Option.some.inj (h.merged.symm.trans hmerge.2.2.1)
      subst ht
      exact ⟨⟨_, _, hmerge⟩, Settles.typed_object h.object hbelow⟩
    | _ => simp_all

/-- The class has a property under the key if a schema declares one, and such a property has the
bounds that are left. -/
structure Bounded (decl : TypeDecl) (key : String) (all : List Json) : Prop where
  present : all ≠ [] → ∃ p ∈ decl.properties, p.key = key
  bound : ∀ p ∈ decl.properties, p.key = key → ∀ side, p.constraints.bound side =
    Bound.left side all

theorem bounded_of_mirrors {files : FileSystem} {lib : Library} (hkeys : lib.KeysOnce)
    (ht : d.store.Truthful files lib) (hmade : d.store.Has made)
    (hbare : lib.Bare (d.store.node made).location) {decl : TypeDecl}
    (hmirrors : Mirrors ctx d made decl)
    (hassembled : Assembled (Stated Tabular) (d.store.node made).content parts)
    (hinline : ∀ x ∈ declarations key parts, x.Inline) :
    Bounded decl key (declarations key parts) := by
  have htabular := hassembled.tabulates.toTabular
  have hcomposed := hassembled.declared hinline
  have hlisted : decl.properties.map (·.key) = (d.store.node made).content.propertyKeys :=
    hmirrors.keys.trans (htabular.keywords (ht.read made hmade).keywords)
  have hkey : (∃ p ∈ decl.properties, p.key = key) ↔
      ∃ x, (d.store.node made).content.declared key = some x := by
    rw [← htabular.mem_propertyKeys, ← hlisted, List.mem_map]
  refine ⟨fun hdeclared => hkey.mpr ?_, ?_⟩
  · by_contra hnone
    exact hdeclared (hcomposed.missing (Option.eq_none_iff_forall_ne_some.mpr fun x hx =>
      hnone ⟨x, hx⟩))
  · rintro p hp rfl side
    obtain ⟨x, hx⟩ := hkey.mp ⟨p, hp, rfl⟩
    obtain ⟨found, hfound, -, hproperty, -⟩ := hmirrors.properties p hp
    have hpart := hcomposed.assembled x hx
    -- The schema found under the key is what the merged value has there.
    have hcontent := child_content hkeys ht hmade hbare (.property p.key) hfound
      (htabular.descend?_property.trans hx) (hpart.inline fun _ h => h)
    have hread := (ht.read found.id (hfound.has ht.toSound)).keywords
    rw [hcontent] at hread
    rw [← Constraints.bound_ofKeywords hpart hread side, hproperty]
    rfl

section Documents

variable (hkeys : full.KeysOnce)
  (hfiles : ∀ name content, Store.fetch ctx.files name = .ok content → full name = .ok content)
  (hsteps : ∀ step ∈ steps, step.Registers fun name content => full name = .ok content)

include hkeys hfiles hsteps

/-- The class of a merged schema has the bounds that are left of those that its members and it
itself state. -/
theorem MergedClass.bounded (h : Succeeds ctx {} steps d)
    (hclass : MergedClass ctx d place id made type) (hparts : Contributes d.store id parts)
    (htabular : ∀ part ∈ parts, part.Tabular) (hinline : ∀ x ∈ declarations key parts, x.Inline) :
    d.graph.Has type ∧ Bounded (d.graph.get type) key (declarations key parts) := by
  have hd := h.reaches.consistent consistent_empty
  have hserved := h.reaches.served hfiles hsteps (served_empty hfiles)
  have hlib : (d.store.library ctx.files).KeysOnce :=
    fun place members hcontains => hkeys place members (hcontains.mono hserved.sub)
  have ht := hserved.warranted.store
  obtain ⟨⟨barred, k, hmerges⟩, htype⟩ := hclass.typed hd
  obtain ⟨others, hothers, hmerged⟩ := merges_assembled (fun _ (h : Tabular _) => h.once) hlib ht k
    id made hclass.members hmerges
  obtain rfl := hothers.unique hparts
  obtain ⟨hassembled, hbare⟩ := hmerged htabular
  have hmade := hmerges.has_made ht.toSound
  obtain ⟨hhas, hplace⟩ := TypeGraph.typeAt?_some hd.placed htype
  obtain ⟨maker, hmaker, -, -, hmakes⟩ := hd.declared type hhas
  rw [hplace, hd.store.own hmade] at hmaker
  obtain rfl := Option.some.inj hmaker
  have hobject := hclass.object
  have hkind : (d.graph.get type).kind = .bean := by
    generalize (d.graph.get type).kind = kind at hmakes
    cases hmakes <;> simp_all
  obtain ⟨owner, howner, hpopulated⟩ := h.populated hhas hkind
  rw [hplace, hd.store.own hmade] at howner
  obtain rfl := Option.some.inj howner
  have hmirrors := mirrors_of_populated hd hpopulated
  exact ⟨hhas, bounded_of_mirrors hlib ht hmade hbare hmirrors hassembled hinline⟩

end Documents

/-- A superclass of the type has a property under the key with this bound. -/
def Inherits (g : TypeGraph) (type : TypeId) (key : String) (side : Side) (b : Bound) : Prop :=
  ∃ owner ∈ g.lineage type, owner ≠ type ∧ ∃ p ∈ (g.get owner).properties, p.key = key ∧
    p.constraints.bound side = some b

/-- What is checked of one integer under the key, where the class has the bounds that are left and
inherits others. -/
theorem reported_iff {settings : Settings} {g : TypeGraph} {x : Int} {all : List Json}
    (hon : settings.includeJsr303Annotations = true) (hbounded : Bounded (g.get type) key all)
    (hfits : ∀ v ∈ all, v.BoundsFit)
    (hinherited : ∀ side b, Inherits g type key side b → b.value.Fits)
    (hx : x.natAbs ≤ Binary64.significandEnd) :
    (∃ violation ∈ Check.violations g (Decoration.decorate settings g) type (Check.single key x) "",
        violation.path = key) ↔
      ∃ side b, (Bound.left side all = some b ∨ Inherits g type key side b) ∧
      b.Excludes side x := by
  constructor
  · intro hreported
    have hall : ∀ owner ∈ g.lineage type, ∀ p ∈ (g.get owner).properties, p.key = key →
        ∀ side b, p.constraints.bound side = some b →
          Bound.left side all = some b ∨ Inherits g type key side b := by
      intro owner howner p hp hkey side b hb
      by_cases hsame : owner = type
      · subst hsame
        exact .inl ((hbounded.bound p hp hkey side).symm.trans hb)
      · exact .inr ⟨owner, howner, hsame, p, hp, hkey, hb⟩
    obtain ⟨owner, howner, p, hp, hkey, side, b, hb, hbeyond⟩ := Check.excludes_of_reported hon
      (fun owner howner p hp hkey side b hb => (hall owner howner p hp hkey side b hb).elim
        (Bound.left_fits hfits) (hinherited side b)) hx hreported
    exact ⟨side, b, hall owner howner p hp hkey side b hb, hbeyond⟩
  · rintro ⟨side, b, hleft | hinherits, hbeyond⟩
    · have hdeclared : all ≠ [] := by
        rintro rfl
        cases side <;> cases hleft
      obtain ⟨p, hp, hkey⟩ := hbounded.present hdeclared
      exact Check.reported_of_excludes hon (TypeGraph.self_mem_lineage g type) hp hkey
        ((hbounded.bound p hp hkey side).trans hleft) (Bound.left_fits hfits hleft) hx hbeyond
    · have hfit := hinherited side b hinherits
      obtain ⟨owner, howner, -, p, hp, hkey, hb⟩ := hinherits
      exact Check.reported_of_excludes hon howner hp hkey hb hfit hx hbeyond

/-- The members of a schema and it itself declare a property with these schemas, none of which is a
reference, by numbers up to 2^53. -/
structure DeclaresAs (st : Store) (id : NodeId) (key : String) (all : List Json) : Prop where
  parts : ∃ parts, Contributes st id parts ∧ (∀ part ∈ parts, part.Tabular) ∧
    declarations key parts = all
  inline : ∀ x ∈ all, x.Inline
  fits : ∀ x ∈ all, x.BoundsFit

def Reports (m : Model) (type : TypeId) (key : String) (x : Int) : Prop :=
  ∃ violations, m.check? (m.graph.qualifiedName type) (Check.single key x) = some violations ∧
    ∃ violation ∈ violations, violation.path = key

theorem check?_finish {settings : Settings} (h : Reaches ctx {} steps d)
    (hm : finish settings d = .ok m) (htype : d.graph.Has type) (v : Json) :
    m.check? (m.graph.qualifiedName type) v =
      some (Check.violations m.graph (Decoration.decorate settings m.graph) type v "") := by
  have hgains := finish_gains (h.consistent consistent_empty) hm
  have hfound : m.graph.find? (m.graph.qualifiedName type) = some type := by
    rw [hgains.keeps.find? hgains.size, (hgains.keeps.names hgains.size).2]
    have hd := h.consistent consistent_empty
    exact TypeGraph.find?_qualifiedName htype fun other hother hname =>
      hd.named.distinct other type hother htype hname
  unfold Model.check?
  rw [hfound]
  unfold finish at hm
  obtain ⟨graph, -, hpure⟩ := ok_of_bind hm
  cases hpure
  rfl

/-- The class of a merged schema is checked against the bounds that are left for a key and those
that it inherits: exactly the integers beyond one of them are reported. -/
theorem MergedClass.reports_iff {all : List Json} {x : Int} (hkeys : full.KeysOnce)
    (hfiles : ∀ name content, Store.fetch ctx.files name = .ok content → full name = .ok content)
    (hsteps : ∀ step ∈ steps, step.Registers fun name content => full name = .ok content)
    (h : Succeeds ctx {} steps d) (hclass : MergedClass ctx d place id made type)
    (hall : DeclaresAs d.store id key all) (hon : ctx.settings.includeJsr303Annotations = true)
    (hm : finish ctx.settings d = .ok m)
    (hinherited : ∀ side b, Inherits m.graph type key side b → b.value.Fits)
    (hx : x.natAbs ≤ 2 ^ 53) :
    (m.check? (m.graph.qualifiedName type) (Check.single key x)).isSome = true ∧
      (Reports m type key x ↔ ∃ side b,
        (Bound.left side all = some b ∨ Inherits m.graph type key side b) ∧ b.Excludes side x) := by
  obtain ⟨parts, hparts, htabular, rfl⟩ := hall.parts
  obtain ⟨hhas, hbounded⟩ := hclass.bounded hkeys hfiles hsteps h hparts htabular hall.inline
  have hcheck := check?_finish h.reaches hm hhas (Check.single key x)
  have hkept : (m.graph.get type).properties = (d.graph.get type).properties := by
    unfold finish at hm
    obtain ⟨graph, hbind, hpure⟩ := ok_of_bind hm
    cases hpure
    exact Family.bindAll_part (·.properties) (fun _ _ _ => rfl) hbind type
  refine ⟨by rw [hcheck]; rfl, ?_⟩
  rw [← reported_iff hon ⟨hkept ▸ hbounded.present, hkept ▸ hbounded.bound⟩ hall.fits hinherited hx]
  constructor
  · rintro ⟨violations, hviolations, hreported⟩
    rw [hcheck] at hviolations
    exact Option.some.inj hviolations ▸ hreported
  · exact fun hreported => ⟨_, hcheck, hreported⟩

-- Two members that state a minimum of one property, in either order.
private def boundContext : Context := ⟨{ includeJsr303Annotations := true }, ⟨[], []⟩⟩

private def boundPlace : Location := .root "mem:///a.json"

private def limited (limit : Int) : Json :=
  .object [("type", .string "integer"), ("minimum", .number (.integer limit))]

private def limitedSchema (first second : Int) : Json :=
  .object [("allOf", .array
    [.object [("properties", .object [("p", limited first)])],
      .object [("properties", .object [("p", limited second)])]])]

private def boundSteps (first second : Int) : List Step :=
  [.register "mem:///a.json" (limitedSchema first second), .generate boundPlace]

private def boundStart (first second : Int) : Draft :=
  { store := ({} : Store).register "mem:///a.json" (limitedSchema first second) }

private def boundDraft (first second : Int) : Draft :=
  ((generate boundContext boundPlace).run (boundStart first second)).2

private def boundParts (first second : Int) : List Json :=
  [((boundDraft first second).store.node ⟨1⟩).content,
    ((boundDraft first second).store.node ⟨2⟩).content,
    ((boundDraft first second).store.node ⟨0⟩).content]

private def boundLibrary (first second : Int) : Library :=
  (boundStart first second).store.library boundContext.files

private def boundModel (first second : Int) : Model :=
  ⟨(boundDraft first second).graph,
    Decoration.decorate boundContext.settings (boundDraft first second).graph,
    boundContext.settings⟩

private def isLimited (limit : Int) : Json → Bool
  | .object [(type, .string kind), (name, .number (.integer n))] =>
    decide (type = "type" ∧ kind = "integer" ∧ name = "minimum" ∧ n = limit)
  | _ => false

private def areLimited (first second : Int) : List Json → Bool
  | [v, w] => isLimited first v && isLimited second w
  | _ => false

@[mk_iff] private structure BoundOutcome (first second : Int) : Prop where
  answer : ((generate boundContext boundPlace).run (boundStart first second)).1.toOption =
    some (.generated ⟨0⟩)
  known : (boundDraft first second).store.id? boundPlace = some ⟨0⟩
  members : ((boundDraft first second).store.node ⟨0⟩).shape = .allOf
  indices : memberIndices ((boundDraft first second).store.node ⟨0⟩) = [0, 1]
  settled : extendsItself ((boundDraft first second).store.node ⟨0⟩) = false
  merged : (boundDraft first second).store.id?
    (((boundDraft first second).store.node ⟨0⟩).location.below ["allOf"]) = some ⟨3⟩
  object : ((boundDraft first second).store.node ⟨3⟩).shape = .object
  found : ∀ i < 2, (boundDraft first second).store.id?
    (((boundDraft first second).store.node ⟨0⟩).location.below ["allOf", toString i]) =
      some ⟨i + 1⟩
  inline : ∀ i < 2, false = decide (((boundDraft first second).store.node ⟨i + 1⟩).location ≠
    ((boundDraft first second).store.node ⟨0⟩).location.below ["allOf", toString i])
  shape : ∀ i < 2, ((boundDraft first second).store.node ⟨i + 1⟩).shape ≠ .allOf
  distinct : ((boundStart first second).store.documents.all fun document =>
    document.2.parts.all Library.distinctKeys) = true
  listing : ((boundParts first second).all fun part => decide part.Listing) = true
  declared : areLimited first second (declarations "p" (boundParts first second)) = true
  families : (boundDraft first second).families.isEmpty = true
  lineage : (boundDraft first second).graph.lineage ⟨0⟩ = [⟨0⟩]

private theorem bound_outcome_rising : BoundOutcome 5 10 :=
  (boundOutcome_iff _ _).mpr (by decide +kernel)

private theorem bound_outcome_falling : BoundOutcome 10 5 :=
  (boundOutcome_iff _ _).mpr (by decide +kernel)

private theorem eq_limited {limit : Int} {v : Json} (h : isLimited limit v = true) :
    v = limited limit := by
  unfold isLimited at h
  split at h
  · obtain ⟨rfl, rfl, rfl, rfl⟩ := of_decide_eq_true h
    rfl
  · cases h

private theorem left_limited (first second : Int) :
    Bound.left .lower [limited first, limited second] = some ⟨.integer second, false⟩ := rfl

private theorem left_limited_one (limit : Int) :
    Bound.left .lower [limited limit] = some ⟨.integer limit, false⟩ := rfl

private theorem inline_limited (limit : Int) : (limited limit).Inline :=
  ⟨⟨_, rfl, by simp [Json.Distinct]⟩, fun _ h => by cases h⟩

private theorem boundsFit_limited {limit : Int} (h : (JsonNumber.integer limit).Fits) :
    (limited limit).BoundsFit := by
  rintro (_ | _) n (hn | hn)
  · cases hn
    exact h
  all_goals cases hn

section Outcome

variable {first second : Int} (o : BoundOutcome first second)

include o

private theorem bound_generates : (generate boundContext boundPlace).run (boundStart first second) =
    (.ok (.generated ⟨0⟩), boundDraft first second) :=
  run_of_fst (eq_ok_of_toOption o.answer)

private theorem bound_succeeds :
    Succeeds boundContext {} (boundSteps first second) (boundDraft first second) :=
  .step rfl (.step ((run_bind_ok (bound_generates o)).trans rfl) (.done _))

private theorem bound_class :
    MergedClass boundContext (boundDraft first second) boundPlace ⟨0⟩ ⟨3⟩ ⟨0⟩ := by
  have hstart : Consistent (boundStart first second) :=
    (Reaches.step (r := .ok ()) rfl (by simp) (.done _) :
      Reaches boundContext {} [.register "mem:///a.json" (limitedSchema first second)]
        (boundStart first second)).consistent consistent_empty
  have hsettled := ((generate_acts hstart boundPlace).success (bound_generates o)).2.1
  exact ⟨o.known, o.members, o.merged, o.object,
    hsettled.generate_repeats ((bound_succeeds o).reaches.consistent consistent_empty)⟩

private theorem bound_contributes :
    Contributes (boundDraft first second).store ⟨0⟩ (boundParts first second) := by
  have hfound : ∀ i < 2, (boundDraft first second).store.Found ⟨0⟩ ["allOf", toString i]
      ⟨⟨i + 1⟩, false⟩ := fun i hi => ⟨o.found i hi, o.inline i hi⟩
  have hsecond := @Says.part _ ⟨0⟩ 1 [] false ⟨⟨2⟩, false⟩ _ (hfound 1 (by decide)) rfl
    (o.shape 1 (by decide)) .nothing
  have hfirst := @Says.part _ ⟨0⟩ 0 [1] false ⟨⟨1⟩, false⟩ _ (hfound 0 (by decide)) rfl
    (o.shape 0 (by decide)) hsecond
  refine ⟨[((boundDraft first second).store.node ⟨1⟩).content,
    ((boundDraft first second).store.node ⟨2⟩).content], ?_, rfl⟩
  rw [o.indices, o.settled]
  exact hfirst

private theorem bound_declared :
    declarations "p" (boundParts first second) = [limited first, limited second] := by
  have hdeclared := o.declared
  unfold areLimited at hdeclared
  split at hdeclared
  · rename_i hall
    rw [Bool.and_eq_true] at hdeclared
    rw [hall, eq_limited hdeclared.1, eq_limited hdeclared.2]
  · cases hdeclared

private theorem bound_declares (hfirst : (JsonNumber.integer first).Fits)
    (hsecond : (JsonNumber.integer second).Fits) :
    DeclaresAs (boundDraft first second).store ⟨0⟩ "p" [limited first, limited second] where
  parts := by
    refine ⟨_, bound_contributes o, fun part hpart => ?_, bound_declared o⟩
    have hlisting : part.Listing :=
      of_decide_eq_true (List.all_eq_true.mp o.listing part hpart)
    exact hlisting.toTabular
  inline x hx := by
    simp only [List.mem_cons, List.not_mem_nil, or_false] at hx
    obtain rfl | rfl := hx <;> exact inline_limited _
  fits x hx := by
    simp only [List.mem_cons, List.not_mem_nil, or_false] at hx
    obtain rfl | rfl := hx
    · exact boundsFit_limited hfirst
    · exact boundsFit_limited hsecond

private theorem bound_keys : (boundLibrary first second).KeysOnce :=
  Library.keysOnce_of_parts (fun _ _ h => mem_documents (fetch_nothing []) h) o.distinct

private theorem bound_finish :
    finish boundContext.settings (boundDraft first second) = .ok (boundModel first second) := by
  rw [finish, List.isEmpty_iff.mp o.families]
  rfl

private theorem bound_inherits {key : String} {b : Bound} :
    ¬ Inherits (boundModel first second).graph ⟨0⟩ key side b := by
  rw [boundModel, Inherits, o.lineage]
  rintro ⟨owner, howner, hother, -⟩
  exact hother (List.mem_singleton.mp howner)

end Outcome

private theorem bound_files (first second : Int) (name : String) (content : Json)
    (h : Store.fetch boundContext.files name = .ok content) :
    boundLibrary first second name = .ok content := absurd h (fetch_nothing [] name content)

private theorem bound_registers (first second : Int) : ∀ step ∈ boundSteps first second,
    step.Registers fun name content => boundLibrary first second name = .ok content :=
  List.forall_mem_cons.mpr ⟨rfl, List.forall_mem_cons.mpr ⟨trivial, List.forall_mem_nil _⟩⟩

private theorem limited_fits {limit : Int} (h : limit.natAbs ≤ 10) :
    (JsonNumber.integer limit).Fits := by
  have hrange : |limit| ≤ 10 := by
    rw [Int.abs_eq_natAbs]
    omega
  have hcast : |(limit : ℚ)| ≤ 10 := by exact_mod_cast hrange
  refine ⟨⟨?_, ?_⟩, ?_⟩
  · unfold JsonNumber.signedMin
    omega
  · unfold JsonNumber.wordMax
    omega
  · exact hcast.trans (by norm_num)

private theorem limited_kept : Bound.Kept .lower [limited 5, limited 10] := by
  refine Bound.kept_of_rising (fun v hv => ?_) ?_
  · simp only [List.mem_cons, List.not_mem_nil, or_false] at hv
    obtain rfl | rfl := hv <;>
      exact ⟨fun x hx => ⟨_, (Option.some.inj hx).symm⟩, rfl⟩
  · refine List.pairwise_pair.mpr fun x hx => ?_
    have hfive : x < (5 : Int) := hx
    have hten : x < (10 : Int) := hfive.trans (by norm_num)
    exact hten

end Run

end SchemaBeans
