import SchemaBeans.Proofs.Run.Steps

/-! # Generating again

What was generated once is generated again, whatever other steps come in between, fail or not: the
same type comes out and nothing changes. -/
namespace SchemaBeans.Run

open Drafting

variable {ctx : Context} {d e : Draft} {place : Location} {t : TypeRef}

/-- The type is the only one of the place, and whoever comes to the place finds it and changes
nothing: by generating the place, or by whatever reference leads to a schema there, under any
request and at any depth. -/
structure StandsAt (ctx : Context) (d : Draft) (type : TypeId) (place : Location) : Prop where
  only : ∀ other, d.graph.Has other → ((d.graph.get other).place = place ↔ other = type)
  again : (generate ctx place).run d = (.ok (.generated type), d)
  named : ∀ source reference,
    Location.ofReference (d.store.node source).location.document reference = .ok place →
    ∃ id, (d.store.node id).location = place ∧
      (inStore (Store.resolveReference ctx.files source reference)).run d = (.ok id, d)
  reached : ∀ id, (d.store.node id).location = place → ∀ request fuel,
    (dispatch ctx (fuel + 1) request id).run d = (.ok (.generated type), d)

theorem SettledAt.generate_repeats (hd : Consistent d) (h : SettledAt ctx d place t) :
    Repeats (generate ctx place) d t := by
  obtain ⟨id, k, hid, hk, ht⟩ := h
  unfold generate
  refine (inStore_repeats (Store.resolve_repeats hid)).bind ?_
  refine Repeats.bind (a := d.store.node id) rfl (Repeats.bind (a := d) rfl ?_)
  exact ht.repeats hd.store hd.placed hd.declared (hd.store.bound hid) _ hk

theorem resolveReference_repeats {files : FileSystem} {st : Store} {source id : NodeId}
    {reference : String}
    (href : Location.ofReference (st.node source).location.document reference = .ok place)
    (hid : st.id? place = some id) :
    Repeats (Store.resolveReference files source reference) st id := by
  unfold Store.resolveReference
  refine Repeats.bind (a := st) rfl ((Repeats.lift href).bind ?_)
  exact Store.resolve_repeats hid

theorem standsAt_place (hd : Consistent d) {type : TypeId} (htype : d.graph.Has type) :
    StandsAt ctx d type (d.graph.get type).place := by
  obtain ⟨id, hid, hplace, -⟩ := hd.declared type htype
  have htyped : ∀ id, (d.store.node id).location = (d.graph.get type).place →
      d.graph.typeAt? (d.store.node id).location = some type := by
    intro id hplace
    rw [hplace]
    exact hd.placed.typeAt? htype
  have hsettled : SettledAt ctx d (d.graph.get type).place (.generated type) := by
    refine ⟨id, 1, hid, ?_, .typed (htyped id hplace)⟩
    unfold depth
    exact Nat.mul_pos (by omega) (by omega)
  constructor
  · exact fun other hother =>
      ⟨fun h => hd.placed.unique hother htype h, fun h => by rw [h]⟩
  · exact hsettled.generate_repeats hd
  · intro source reference href
    exact ⟨id, hplace, inStore_repeats (resolveReference_repeats href hid)⟩
  · intro id hplace request fuel
    rw [dispatch]
    exact dispatchWith_typed (htyped id hplace)

/-- After any steps, a place that was generated once is generated again without a change. From the
state on in which a type exists, be it one that the later steps lead to or pass through, the type
stands at its place. -/
theorem generate_stable {before later : List Step} {d₀ d₁ d₂ : Draft}
    (hbefore : Reaches ctx {} before d₀) (hfirst : (generate ctx place).run d₀ = (.ok t, d₁))
    (hlater : Reaches ctx d₁ later d₂) (hreset : .reset ∉ later) :
    (generate ctx place).run d₂ = (.ok t, d₂) ∧ Leads ctx 0 d₁ d₂ ∧
      ∀ e f, Leads ctx 0 d₁ e → Leads ctx 0 e f → ∀ type, e.graph.Has type →
        StandsAt ctx f type (e.graph.get type).place := by
  have h₀ := hbefore.consistent consistent_empty
  obtain ⟨hl, hsettled, -⟩ := (generate_follows h₀ place).success hfirst
  have h₁ := hl.consistent h₀
  have hlater := hlater.leads h₁ hreset
  refine ⟨(hsettled.leads h₁ hlater).generate_repeats (hlater.consistent h₁), hlater, ?_⟩
  intro e f he hf type htype
  rw [← hf.keeps.place htype]
  exact standsAt_place (hf.consistent (he.consistent h₁)) (hf.keeps.has htype)

-- A record that refers to itself: it is generated, then a place that does not exist, then the
-- record is registered again.
private def sampleContext : Context := ⟨{}, ⟨[], []⟩⟩

private def samplePlace : Location := .root "mem:///record.json"

private def sampleSchema : Json :=
  .object [("type", .string "object"),
    ("properties", .object [("next", .object [("$ref", .string "#")])])]

private def sampleStart : Draft :=
  { store := ({} : Store).register "mem:///record.json" sampleSchema }

private def sampleFirst : Draft := ((generate sampleContext samplePlace).run sampleStart).2

private def sampleMissing : Draft :=
  ((Step.generate ⟨"mem:///missing.json", ""⟩).action sampleContext |>.run sampleFirst).2

private def sampleLater : Draft :=
  { sampleMissing with store := sampleMissing.store.register "mem:///record.json" sampleSchema }

theorem generate_stable_record :
    (generate sampleContext samplePlace).run sampleLater = (.ok (.generated ⟨0⟩), sampleLater) := by
  have hbefore : Reaches sampleContext {}
      [.register "mem:///record.json" sampleSchema] sampleStart :=
    .step (r := .ok ()) rfl (by simp) (.done _)
  have hanswer : ((generate sampleContext samplePlace).run sampleStart).1 = .ok (.generated ⟨0⟩) :=
    eq_ok_of_toOption (by decide +kernel)
  have hfirst : (generate sampleContext samplePlace).run sampleStart =
      (.ok (.generated ⟨0⟩), sampleFirst) := run_of_fst hanswer
  have hfails : isEndless ((Step.generate ⟨"mem:///missing.json", ""⟩).action sampleContext |>.run
      sampleFirst).1 = false := by decide +kernel
  have hagain : Reaches sampleContext sampleMissing
      [.register "mem:///record.json" sampleSchema] sampleLater :=
    .step (r := .ok ()) rfl (by simp) (.done _)
  unfold sampleMissing at hagain
  have hlater : Reaches sampleContext sampleFirst [.generate ⟨"mem:///missing.json", ""⟩,
      .register "mem:///record.json" sampleSchema] sampleLater := .of_run _ hfails hagain
  exact (generate_stable hbefore hfirst hlater (by simp)).1

end SchemaBeans.Run
