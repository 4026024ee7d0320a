import Mathlib.Tactic.MkIffOfInductiveProp
import SchemaBeans.Proofs.Binary64.Monotone
import SchemaBeans.Proofs.Keywords.Declared
import SchemaBeans.Proofs.Run.Types

/-! # Fields that are wide enough

A field for an integer schema is a long one if a bound under an inclusive keyword is out of the
range of an int. The rule compares doubles and yet decides exactly, since the limits of the range
and their neighbours are doubles. It does not look at numbers under the exclusive keywords, which
are recorded as bounds all the same. -/
namespace SchemaBeans

open Check (Side)

variable {settings : Settings} {k : Keywords} {side : Side} {n : JsonNumber} {primitive : Bool}

namespace Binary64

variable {x low high : Binary64} {a b : Int}

theorem finite_between (hlow : low.isFinite = true) (hhigh : high.isFinite = true)
    (habove : low.le x = true) (hbelow : x.le high = true) : x.isFinite = true := by
  cases low with
  | finite s m e =>
    cases high with
    | finite t l f =>
      cases x with
      | finite => rfl
      | infinite negative =>
        cases negative with
        | false => cases hbelow
        | true => cases habove
      | nan => cases hbelow
    | _ => cases hhigh
  | _ => cases hlow

theorem le_ofInt_iff (ha : a.natAbs < significandEnd) (hb : (ofInt b).isFinite = true) :
    (a : ℚ) ≤ (ofInt b).value ↔ a ≤ b := by
  obtain ⟨hfinite, hexact⟩ := ofInt_exact ha.le
  constructor
  · intro h
    by_contra hless
    obtain ⟨hfinite, hexact⟩ := ofInt_exact (n := a - 1) (by omega)
    have hround := ofInt_mono hb hfinite (by omega)
    rw [hexact, Int.cast_sub, Int.cast_one] at hround
    linarith
  · intro h
    rw [← hexact]
    exact ofInt_mono hfinite hb h

theorem ofInt_le_iff (ha : a.natAbs < significandEnd) (hb : (ofInt b).isFinite = true) :
    (ofInt b).value ≤ a ↔ b ≤ a := by
  obtain ⟨hfinite, hexact⟩ := ofInt_exact ha.le
  constructor
  · intro h
    by_contra hless
    obtain ⟨hfinite, hexact⟩ := ofInt_exact (n := a + 1) (by omega)
    have hround := ofInt_mono hfinite hb (by omega)
    rw [hexact, Int.cast_add, Int.cast_one] at hround
    linarith
  · intro h
    rw [← hexact]
    exact ofInt_mono hb hfinite h

end Binary64

open Binary64

/-- A signed word of 32 bits, or a fraction between two of them. -/
def JsonNumber.InRange (n : JsonNumber) : Prop :=
  ((-2147483648 : Int) : ℚ) ≤ n.rational ∧ n.rational ≤ ((2147483647 : Int) : ℚ)

namespace Drafting

theorem inRange_of_inIntRange (h : inIntRange n = true) : n.InRange := by
  obtain ⟨habove, hbelow⟩ := Bool.and_eq_true_iff.mp h
  have hlow := ofInt_exact (n := -2147483648) (by decide)
  have hhigh := ofInt_exact (n := 2147483647) (by decide)
  have hfinite := finite_between hlow.1 hhigh.1 habove hbelow
  rw [le_iff hlow.1 hfinite, hlow.2] at habove
  rw [le_iff hfinite hhigh.1, hhigh.2] at hbelow
  cases n with
  | float x => exact ⟨habove, hbelow⟩
  | integer n =>
    have hleast := (le_ofInt_iff (by decide) hfinite).mp habove
    have hmost := (ofInt_le_iff (by decide) hfinite).mp hbelow
    exact ⟨Int.cast_le.mpr hleast, Int.cast_le.mpr hmost⟩

theorem inRange_of_integerType (h : integerType settings k = .scalar .integer primitive)
    (hlimit : k.limit side = some n) : n.InRange := by
  refine inRange_of_inIntRange ?_
  by_contra hout
  rw [Bool.not_eq_true] at hout
  unfold integerType at h
  cases side with
  | lower =>
    have hminimum : k.minimum = some n := hlimit
    simp [hminimum, hout] at h
  | upper =>
    have hmaximum : k.maximum = some n := hlimit
    simp [hmaximum, hout] at h

end Drafting

theorem Constraints.bound_inRange (hlimit : ∀ n, k.limit side = some n → n.InRange) :
    (∀ b, (ofKeywords k).bound side = some b → b.value.InRange) ↔
      ∀ e, k.exclusive side = some (.value e) → e.InRange := by
  constructor
  · exact fun h e he => h _ (bound_of_number he)
  · intro h b hb
    cases declares_of_bound hb with
    | inclusive hvalue => exact hlimit _ hvalue
    | strict hvalue => exact hlimit _ hvalue
    | exclusive hnumber => exact h _ hnumber

namespace Drafting

variable {ctx : Context} {d : Draft} {rounds : Nat} {id : NodeId} {t : TypeRef}

theorem integerType_of_settles (hshape : (d.store.node id).shape = .primitive .integer)
    (h : Settles ctx d rounds id t) (hscalar : t = .scalar .integer primitive) :
    integerType ctx.settings (d.store.node id).keywords = .scalar .integer primitive := by
  cases rounds with
  | zero => exact h.elim
  | succ rounds =>
    cases h with
    | primitive _ hother =>
      rw [hshape] at hother
      cases hother
      exact hscalar
    | _ => simp_all

end Drafting

namespace Run

open Drafting

variable {ctx : Context} {d : Draft} {steps : List Step}

/-- A property that is an int for an integer schema has every bound under an inclusive keyword in
the range of an int. So its recorded bounds are in that range exactly if the numbers under the
exclusive keywords are. -/
theorem int_bounds_fit (h : Succeeds ctx {} steps d) (type : TypeId) (htype : d.graph.Has type)
    (hkind : (d.graph.get type).kind = .bean) (p : Property)
    (hp : p ∈ (d.graph.get type).properties) (hint : p.type = .scalar .integer primitive) :
    ∃ id found, d.store.id? (d.graph.get type).place = some id ∧
      d.store.Found id ["properties", p.key] found ∧
      p.constraints = .ofKeywords (d.store.node found.id).keywords ∧
      ((d.store.node found.id).shape = .primitive .integer →
        (∀ side n, (d.store.node found.id).keywords.limit side = some n → n.InRange) ∧
        ((∀ side b, p.constraints.bound side = some b → b.value.InRange) ↔
          ∀ side e, (d.store.node found.id).keywords.exclusive side = some (.value e) →
            e.InRange)) := by
  obtain ⟨id, hid, hpopulated⟩ := h.populated htype hkind
  obtain ⟨found, hfound, heq, ht⟩ := describes_of_populated hpopulated hp
  have hconstraints : p.constraints = .ofKeywords (d.store.node found.id).keywords := by
    rw [heq]
    rfl
  refine ⟨id, found, hid, hfound, hconstraints, fun hshape => ?_⟩
  have hrule := integerType_of_settles hshape ht hint
  have hlimit : ∀ side n, (d.store.node found.id).keywords.limit side = some n → n.InRange :=
    fun _ _ hn => inRange_of_integerType hrule hn
  refine ⟨hlimit, ?_⟩
  rw [hconstraints]
  exact forall_congr' fun side => Constraints.bound_inRange (hlimit side)

-- A property with an inclusive lower bound of 0 and an exclusive upper one.
private def widthContext : Context := ⟨{}, ⟨[], []⟩⟩

private def widthSchema (most : Int) : Json :=
  .object [("type", .string "object"), ("properties", .object [("p", .object
    [("type", .string "integer"), ("minimum", .number (.integer 0)),
      ("exclusiveMaximum", .number (.integer most))])])]

private def widthSteps (most : Int) : List Step :=
  [.register "mem:///a.json" (widthSchema most), .generate (.root "mem:///a.json")]

private def widthStart (most : Int) : Draft :=
  { store := ({} : Store).register "mem:///a.json" (widthSchema most) }

private def widthDraft (most : Int) : Draft :=
  ((Step.generate (.root "mem:///a.json")).action widthContext |>.run (widthStart most)).2

@[mk_iff] private structure WidthOutcome (most : Int) : Prop where
  answer : ((Step.generate (.root "mem:///a.json")).action widthContext |>.run
    (widthStart most)).1.toOption = some ()
  size : (widthDraft most).graph.size = 1
  kind : ((widthDraft most).graph.get ⟨0⟩).kind = .bean
  known : (widthDraft most).store.id? ((widthDraft most).graph.get ⟨0⟩).place = some ⟨0⟩
  found : (widthDraft most).store.id?
    (((widthDraft most).store.node ⟨0⟩).location.below ["properties", "p"]) = some ⟨1⟩
  shape : ((widthDraft most).store.node ⟨1⟩).shape = .primitive .integer
  lower : ((widthDraft most).store.node ⟨1⟩).keywords.exclusive .lower = none
  upper : ((widthDraft most).store.node ⟨1⟩).keywords.exclusive .upper =
    some (.value (.integer most))
  properties : (((widthDraft most).graph.get ⟨0⟩).properties.map fun p =>
      (p.key, p.type, p.constraints)) = [("p", .scalar .integer false,
    { minimum := some ⟨.integer 0, false⟩, maximum := some ⟨.integer most, true⟩ })]

private theorem width_outcome_greatest : WidthOutcome 2147483647 :=
  (widthOutcome_iff _).mpr (by decide +kernel)

private theorem width_outcome_beyond : WidthOutcome 9000000000 :=
  (widthOutcome_iff _).mpr (by decide +kernel)

namespace WidthOutcome

variable {most : Int}

private theorem succeeds (h : WidthOutcome most) :
    Succeeds widthContext {} (widthSteps most) (widthDraft most) :=
  .step rfl (.of_run _ h.answer (.done _))

private theorem has (h : WidthOutcome most) : (widthDraft most).graph.Has ⟨0⟩ := by
  rw [TypeGraph.Has, h.size]
  exact Nat.one_pos

private theorem property (h : WidthOutcome most) :
    ∃ p ∈ ((widthDraft most).graph.get ⟨0⟩).properties, p.key = "p" ∧
      p.type = .scalar .integer false ∧ p.constraints.maximum = some ⟨.integer most, true⟩ := by
  obtain ⟨p, hp, heq⟩ := List.map_eq_singleton_iff.mp h.properties
  simp only [Prod.mk.injEq] at heq
  obtain ⟨hkey, htype, hconstraints⟩ := heq
  exact ⟨p, hp ▸ List.mem_singleton_self p, hkey, htype, by rw [hconstraints]⟩

end WidthOutcome

/-- The greatest int as an exclusive upper bound. -/
theorem int_bounds_fit_greatest :
    ∃ p ∈ ((widthDraft 2147483647).graph.get ⟨0⟩).properties,
      p.type = .scalar .integer false ∧ p.constraints.maximum = some ⟨.integer 2147483647, true⟩ ∧
      ∀ side b, p.constraints.bound side = some b → b.value.InRange := by
  have outcome := width_outcome_greatest
  obtain ⟨p, hp, hkey, hint, hmaximum⟩ := outcome.property
  obtain ⟨id, found, hid, hfound, -, hfits⟩ :=
    int_bounds_fit outcome.succeeds ⟨0⟩ outcome.has outcome.kind p hp hint
  obtain rfl := Option.some.inj (outcome.known.symm.trans hid)
  obtain ⟨⟨node, byReference⟩, hknown, -⟩ := found, hfound
  rw [hkey, outcome.found] at hknown
  obtain rfl := Option.some.inj hknown
  refine ⟨p, hp, hint, hmaximum, (hfits outcome.shape).2.mpr fun side e he => ?_⟩
  cases side with
  | lower =>
    rw [outcome.lower] at he
    cases he
  | upper =>
    rw [outcome.upper] at he
    cases he
    exact ⟨by norm_num [JsonNumber.rational], by norm_num [JsonNumber.rational]⟩

/-- Up to an exclusive upper bound of 9000000000 the field is an int. -/
theorem int_below_wide_bound : ¬ ∀ (ctx : Context) (steps : List Step) (d : Draft) (type : TypeId)
    (p : Property) (primitive : Bool) (id : NodeId) (found : Store.Child),
    Succeeds ctx {} steps d → d.graph.Has type → (d.graph.get type).kind = .bean →
    p ∈ (d.graph.get type).properties → p.type = .scalar .integer primitive →
    d.store.id? (d.graph.get type).place = some id →
    d.store.id? ((d.store.node id).location.below ["properties", p.key]) = some found.id →
    (d.store.node found.id).shape = .primitive .integer →
      ∀ side b, p.constraints.bound side = some b → b.value.InRange := by
  intro h
  have outcome := width_outcome_beyond
  obtain ⟨p, hp, hkey, hint, hmaximum⟩ := outcome.property
  obtain ⟨-, hmost⟩ :=
    h _ _ _ ⟨0⟩ p false ⟨0⟩ ⟨⟨1⟩, false⟩ outcome.succeeds outcome.has outcome.kind
    hp hint outcome.known (hkey ▸ outcome.found) outcome.shape .upper _ hmaximum
  norm_num [JsonNumber.rational] at hmost

end Run

end SchemaBeans
