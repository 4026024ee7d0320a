import Mathlib.Tactic.MkIffOfInductiveProp
import SchemaBeans.Proofs.Generation.Contents
import SchemaBeans.Proofs.Keywords.Constraints
import SchemaBeans.Proofs.Run.Types

/-! # Constraints of properties

A schema without a type of its own stands for another one: the merge of its `allOf`, or the one
branch of its union that is not `null`. The type of a property is then the type of what its schema
stands for in the end, but its constraints are always those of the schema itself. A constraint that
only a member or a branch states is lost. -/
namespace SchemaBeans

namespace Drafting

variable {ctx : Context} {d : Draft} {k : Nat} {id m : NodeId} {t : TypeRef}

/-- The second schema generates in place of the first one, which names no class. -/
inductive StandsFor (d : Draft) (id : NodeId) : NodeId → Prop
  | merge {made : NodeId} (hlib : library? (d.store.node id) = none)
      (hshape : (d.store.node id).shape = .allOf)
      (hmade : d.store.id? ((d.store.node id).location.below ["allOf"]) = some made) :
      StandsFor d id made
  | branch {only : Store.Child} (hlib : library? (d.store.node id) = none)
      (hshape : (d.store.node id).shape = .union) (hbranches : Branches d.store id [only])
      (hown : ((d.store.node id).keywords.hasProperties ||
        (d.store.node id).keywords.family.isSome) = false) : StandsFor d id only.id

theorem marker?_of_lone {keywords : Keywords} {only : Store.Child} {shapes : List Shape}
    (hown : (keywords.hasProperties || keywords.family.isSome) = false) :
    marker? keywords [only] shapes = none := by
  unfold marker?
  rw [hown]

theorem StandsFor.has (h : StandsFor d id m) (hs : d.store.Sound) : d.store.Has m := by
  cases h with
  | merge _ _ hmade => exact hs.bound hmade
  | branch _ _ hbranches _ => exact hbranches.has hs _ List.mem_cons_self

theorem StandsFor.not_makes {kind : TypeKind} (h : StandsFor d id m) : ¬ Makes d id kind := by
  intro hmakes
  cases h with
  | merge _ hshape _ => cases hmakes <;> simp_all
  | branch _ hshape hbranches hown =>
    cases hmakes with
    | object hshape' => simp_all
    | enumeration hshape' => simp_all
    | union _ hplan hkind =>
      obtain rfl := hplan.branches.unique hbranches
      rw [marker?_of_lone hown] at hkind
      cases hkind

/-- What a schema stands for has the type that the schema has. -/
theorem StandsFor.settles (hd : Consistent d) (hid : d.store.Has id) (h : StandsFor d id m)
    (ht : Settles ctx d k id t) : Settles ctx d k m t := by
  obtain ⟨k, rfl⟩ : ∃ l, k = l + 1 := by
    cases k with
    | zero => exact ht.elim
    | succ l => exact ⟨l, rfl⟩
  have hm := h.has hd.store
  have hbelow : Settles ctx d k m t → Settles ctx d (k + 1) m t :=
    Settles.mono hd.store (Nat.le_succ k) hm
  cases ht with
  | typed htype =>
    obtain ⟨hhas, hplace⟩ := TypeGraph.typeAt?_some hd.placed htype
    obtain ⟨maker, hmaker, -, -, hmakes⟩ := hd.declared _ hhas
    rw [hplace, hd.store.own hid] at hmaker
    obtain rfl := Option.some.inj hmaker
    exact absurd hmakes h.not_makes
  | library hname => cases h <;> simp_all
  | allOf _ hshape hmerge ht =>
    cases h with
    | merge _ _ hmade =>
      obtain rfl := Option.some.inj (hmerge.place.symm.trans hmade)
      exact hbelow ht
    | branch _ hunion _ _ => simp_all
  | union _ hshape hplan _ ht =>
    cases h with
    | merge _ hallOf _ => simp_all
    | branch _ _ hbranches _ =>
      obtain rfl := hplan.branches.unique hbranches
      cases ht with
      | cons hone hnone =>
        cases hnone
        exact hbelow hone
  | _ => cases h <;> simp_all

/-- This goes on through merges of branches and branches of merges. -/
theorem settles_of_standsFor (hd : Consistent d) (hid : d.store.Has id)
    (h : Relation.ReflTransGen (StandsFor d) id m) (ht : Settles ctx d k id t) :
    d.store.Has m ∧ Settles ctx d k m t := by
  induction h with
  | refl => exact ⟨hid, ht⟩
  | tail _ hstep ih => exact ⟨hstep.has hd.store, hstep.settles hd ih.1 ih.2⟩

end Drafting

namespace Run

open Drafting Relation

variable {ctx : Context} {d e : Draft} {steps : List Step}

theorem Step.reading (step : Step) (hstep : step ≠ .reset) : Reading (step.action ctx) :=
  Stepwise.any_action (P := Reading)
    { pure := .pure
      throw _ := .throw _
      bind := .bind
      lift _ := .lift _
      register _ := .write fun _ => rfl
      generate := (compositional_reading ctx).generate } step hstep

theorem allRead_empty : AllRead {} := fun id hid => by simp [Store.Has] at hid

theorem Reaches.allRead (h : Reaches ctx d steps e) (hd : AllRead d) : AllRead e := by
  induction h with
  | done => exact hd
  | @step d e f step rest r hrun hends _ ih =>
    refine ih ?_
    by_cases hstep : step = .reset
    · subst hstep
      cases hrun
      exact allRead_empty
    · exact (step.reading hstep d _ _ hrun hends).1 hd

/-- A property has the constraints of the schema under its key, and the type of whatever this schema
stands for. A fact of what it stands for is among the constraints if the schema itself says the same
under the keywords of that fact. -/
theorem constraints_as_written (h : Succeeds ctx {} steps d) (type : TypeId)
    (htype : d.graph.Has type) (hkind : (d.graph.get type).kind = .bean)
    (p : Property) (hp : p ∈ (d.graph.get type).properties) :
    ∃ id found, d.store.id? (d.graph.get type).place = some id ∧
      d.store.Found id ["properties", p.key] found ∧
      p.constraints = .ofKeywords (d.store.node found.id).keywords ∧
      ∀ m, ReflTransGen (StandsFor d) found.id m →
        (∀ request, (dispatch ctx (depth ctx d) request m).run d = (.ok p.type, d)) ∧
        ∀ facet fact,
          (Constraints.ofKeywords (d.store.node m).keywords).fact? facet = some fact →
          (d.store.node m).content.under facet.keywords =
            (d.store.node found.id).content.under facet.keywords →
          p.constraints.fact? facet = some fact := by
  have hd := h.reaches.consistent consistent_empty
  have hread := h.reaches.allRead allRead_empty
  have hfilled := h.filled consistent_empty fun type htype _ => by
    simp [TypeGraph.Has, TypeGraph.size] at htype
  obtain ⟨id, hid, hcomplete⟩ := hfilled type htype (Nat.zero_le _)
  unfold CompleteDecl at hcomplete
  rw [hkind] at hcomplete
  have hall : ∀ p ∈ (d.graph.get type).properties, ∃ key,
      Describes ctx d (depth ctx d) id key p :=
    forall_mem_of_forall₂ (fun key _ hp => ⟨key, hp⟩) hcomplete.described
  obtain ⟨key, hdescribes⟩ := hall p hp
  obtain rfl := hdescribes.key
  obtain ⟨found, hfound, heq, ht⟩ := hdescribes
  have hconstraints : p.constraints = .ofKeywords (d.store.node found.id).keywords := by
    rw [heq]
    rfl
  have hhas := hfound.has hd.store
  refine ⟨id, found, hid, hfound, hconstraints, fun m hm => ?_⟩
  obtain ⟨hmhas, htm⟩ := settles_of_standsFor hd hhas hm ht
  refine ⟨fun request => htm.repeats hd.store hd.placed hd.declared hmhas request
    (Nat.le_refl _), ?_⟩
  intro facet fact hfact hsame
  rw [hconstraints, ← hfact]
  exact Constraints.fact?_agree (hread _ hhas).keywords (hread _ hmhas).keywords facet hsame.symm

-- A property with a greatest length of its own, whose only member states a least length.
private def lengthContext : Context := ⟨{}, ⟨[], []⟩⟩

private def lengthSchema : Json :=
  .object [("type", .string "object"), ("properties", .object [("p", .object
    [("allOf", .array [.object [("type", .string "string"), ("minLength", .number (.integer 1))]]),
      ("maxLength", .number (.integer 9))])])]

private def lengthSteps : List Step :=
  [.register "mem:///a.json" lengthSchema, .generate (.root "mem:///a.json")]

private def lengthStart : Draft :=
  { store := ({} : Store).register "mem:///a.json" lengthSchema }

private def lengthDraft : Draft :=
  ((Step.generate (.root "mem:///a.json")).action lengthContext |>.run lengthStart).2

private def atMostNine : Json.Members → Bool
  | [(name, .number limit)] => name == "maxLength" && limit == .integer 9
  | _ => false

private theorem eq_of_atMostNine {members : Json.Members} (h : atMostNine members = true) :
    members = [("maxLength", .number (.integer 9))] := by
  unfold atMostNine at h
  split at h
  · rw [Bool.and_eq_true, beq_iff_eq, beq_iff_eq] at h
    rw [h.1, h.2]
  · cases h

@[mk_iff] private structure LengthOutcome : Prop where
  answer : ((Step.generate (.root "mem:///a.json")).action lengthContext |>.run
    lengthStart).1.toOption = some ()
  size : lengthDraft.graph.size = 1
  kind : (lengthDraft.graph.get ⟨0⟩).kind = .bean
  known : lengthDraft.store.id? (lengthDraft.graph.get ⟨0⟩).place = some ⟨0⟩
  found : lengthDraft.store.id? ((lengthDraft.store.node ⟨0⟩).location.below ["properties", "p"]) =
    some ⟨1⟩
  library : library? (lengthDraft.store.node ⟨1⟩) = none
  shape : (lengthDraft.store.node ⟨1⟩).shape = .allOf
  merged : lengthDraft.store.id? ((lengthDraft.store.node ⟨1⟩).location.below ["allOf"]) = some ⟨3⟩
  inline : false = decide ((lengthDraft.store.node ⟨1⟩).location ≠
    (lengthDraft.store.node ⟨0⟩).location.below ["properties", "p"])
  properties : ((lengthDraft.graph.get ⟨0⟩).properties.map fun p => (p.key, p.constraints)) =
    [("p", { maxSize := some 9 })]
  constraints : Constraints.ofKeywords (lengthDraft.store.node ⟨3⟩).keywords =
    { minSize := some 1, maxSize := some 9 }
  own : atMostNine ((lengthDraft.store.node ⟨1⟩).content.under Facet.maxSize.keywords) = true
  merge : atMostNine ((lengthDraft.store.node ⟨3⟩).content.under Facet.maxSize.keywords) = true

private theorem length_succeeds (h : LengthOutcome) :
    Succeeds lengthContext {} lengthSteps lengthDraft :=
  .step rfl (.of_run _ h.answer (.done _))

private theorem length_has (h : LengthOutcome) : lengthDraft.graph.Has ⟨0⟩ := by
  rw [TypeGraph.Has, h.size]
  exact Nat.one_pos

private theorem length_property (h : LengthOutcome) :
    ∃ p ∈ (lengthDraft.graph.get ⟨0⟩).properties,
      p.key = "p" ∧ p.constraints = { maxSize := some 9 } := by
  have hmem : ("p", ({ maxSize := some 9 } : Constraints)) ∈
      (lengthDraft.graph.get ⟨0⟩).properties.map fun p => (p.key, p.constraints) := by
    rw [h.properties]
    exact List.mem_singleton_self _
  obtain ⟨p, hp, heq⟩ := List.mem_map.mp hmem
  exact ⟨p, hp, (Prod.mk.inj heq).1, (Prod.mk.inj heq).2⟩

private theorem length_found (h : LengthOutcome) :
    lengthDraft.store.Found ⟨0⟩ ["properties", "p"] ⟨⟨1⟩, false⟩ :=
  ⟨h.found, h.inline⟩

private theorem length_stands (h : LengthOutcome) : StandsFor lengthDraft ⟨1⟩ ⟨3⟩ :=
  .merge h.library h.shape h.merged

private theorem length_outcome : LengthOutcome :=
  lengthOutcome_iff.mpr (by decide +kernel)

theorem constraints_as_written_length : ∃ p ∈ (lengthDraft.graph.get ⟨0⟩).properties,
    p.constraints.fact? .maxSize = some (.size 9) ∧
      ∀ request, (dispatch lengthContext (depth lengthContext lengthDraft) request ⟨3⟩).run
        lengthDraft = (.ok p.type, lengthDraft) := by
  have outcome := length_outcome
  obtain ⟨p, hp, hkey, -⟩ := length_property outcome
  obtain ⟨id, found, hid, hfound, -, hall⟩ := constraints_as_written (length_succeeds outcome) ⟨0⟩
    (length_has outcome) outcome.kind p hp
  obtain rfl := Option.some.inj (outcome.known.symm.trans hid)
  rw [hkey] at hfound
  obtain rfl := (length_found outcome).unique hfound
  obtain ⟨hagain, hfact⟩ := hall ⟨3⟩ (.single (length_stands outcome))
  refine ⟨p, hp, hfact .maxSize (.size 9) ?_ ?_, hagain⟩
  · rw [outcome.constraints]
    rfl
  · rw [eq_of_atMostNine outcome.own, eq_of_atMostNine outcome.merge]

/-- The least length that the member states is not among the constraints of the property. -/
theorem member_constraint_lost : ¬ ∀ (ctx : Context) (steps : List Step) (d : Draft)
    (type : TypeId) (p : Property) (id m : NodeId) (found : Store.Child),
    Succeeds ctx {} steps d → d.graph.Has type → (d.graph.get type).kind = .bean →
    p ∈ (d.graph.get type).properties → d.store.id? (d.graph.get type).place = some id →
    d.store.Found id ["properties", p.key] found → ReflTransGen (StandsFor d) found.id m →
      p.constraints.Includes (.ofKeywords (d.store.node m).keywords) := by
  intro h
  have outcome := length_outcome
  obtain ⟨p, hp, hkey, hconstraints⟩ := length_property outcome
  have hincludes := h _ _ _ ⟨0⟩ p ⟨0⟩ ⟨3⟩ ⟨⟨1⟩, false⟩ (length_succeeds outcome)
    (length_has outcome) outcome.kind hp outcome.known (hkey ▸ length_found outcome)
    (.single (length_stands outcome))
  rw [outcome.constraints, hconstraints] at hincludes
  cases hincludes .minSize (.size 1) rfl

end Run

end SchemaBeans
