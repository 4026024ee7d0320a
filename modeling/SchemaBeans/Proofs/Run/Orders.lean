import Mathlib.Tactic.MkIffOfInductiveProp
import SchemaBeans.Proofs.Generation.Coverage
import SchemaBeans.Proofs.Run.Steps

/-! # Runs in another order

Runs over the same documents that generate the same places, in whatever order, have types at the
same places. Whoever comes to a schema first settles the name of its type, so the names are the
same where a schema is asked for in one way only. -/
namespace SchemaBeans.Run

open Drafting

variable {ctx : Context} {lib : Library} {starts : Location → Prop} {d e start : Draft}
  {places others : List Location}

/-- Registering documents puts nothing on record. -/
theorem registered_bare {docs : List (String × Json)}
    (h : Succeeds ctx d (docs.map fun doc => .register doc.1 doc.2) e)
    (hstore : d.store = { documents := d.store.documents }) (hgraph : d.graph = {}) :
    e.store = { documents := e.store.documents } ∧ e.graph = {} := by
  induction docs generalizing d with
  | nil =>
    cases h
    exact ⟨hstore, hgraph⟩
  | cons doc rest ih =>
    cases h with | step hrun hrest
    cases hrun
    refine ih hrest ?_ hgraph
    show d.store.register doc.1 doc.2 = _
    rw [hstore]
    rfl

/-- Before anything is generated, every type there is was asked for. -/
theorem registered_warranted {docs : List (String × Json)}
    (h : Succeeds ctx {} (docs.map fun doc => .register doc.1 doc.2) start) :
    Warranted ctx (start.store.library ctx.files) starts start := by
  obtain ⟨hstore, hgraph⟩ := registered_bare h rfl rfl
  refine ⟨?_, (h.reaches.consistent consistent_empty).nests, fun type htype => ?_⟩
  · have htruthful := Store.truthful_of_empty ctx.files start.store.documents
    rwa [← hstore] at htruthful
  · rw [hgraph] at htype
    exact absurd htype (Nat.not_lt_zero _)

/-- Generating what is asked for gives types only to what is asked for. -/
theorem generated_warranted (h : Succeeds ctx d (places.map .generate) e)
    (hplaces : ∀ place ∈ places, starts place) (hd : Warranted ctx lib starts d) :
    Warranted ctx lib starts e := by
  induction places generalizing d with
  | nil =>
    cases h
    exact hd
  | cons place rest ih =>
    cases h with | step hrun hrest
    have hstep : Follows (Tells ctx lib starts) ((Step.generate place).action ctx) d
        fun _ _ => True :=
      (generate_tells hd (hplaces place List.mem_cons_self)).bind fun _ _ _ _ =>
        Follows.pure trivial
    exact ih hrest (fun other hother => hplaces other (List.mem_cons_of_mem _ hother))
      ((hstep.success hrun).1.warranted hd)

theorem generated_settled (h : Succeeds ctx d (places.map .generate) e) (hd : Consistent d) :
    ∀ place ∈ places, ∃ t, SettledAt ctx e place t := by
  induction places generalizing d with
  | nil => nofun
  | cons place rest ih =>
    cases h with | @step _ f _ _ _ hrun hrest
    have hstep : Follows (Acts ctx d.graph.size) ((Step.generate place).action ctx) d
        fun _ e => ∃ t, SettledAt ctx e place t :=
      (generate_acts hd place).bind fun t _ _ h => Follows.pure ⟨t, h.1⟩
    obtain ⟨ha, t, hsettled⟩ := hstep.success hrun
    have hf := ha.consistent hd
    have hreset : .reset ∉ rest.map Step.generate := by simp
    rintro other hother
    rcases List.mem_cons.mp hother with rfl | hlater
    · exact ⟨t, hsettled.leads hf (hrest.reaches.leads hf hreset)⟩
    · exact ih hrest hf other hlater

theorem Succeeds.append {first second : List Step} (h : Succeeds ctx d first e)
    {f : Draft} (k : Succeeds ctx e second f) : Succeeds ctx d (first ++ second) f := by
  induction h with
  | done => exact k
  | step hrun _ ih => exact .step hrun (ih k)

/-- What the places of a run have at its end. -/
structure Finished (ctx : Context) (lib : Library) (starts : Location → Prop) (d : Draft) :
    Prop where
  warranted : Warranted ctx lib starts d
  consistent : Consistent d
  built : BuiltFrom ctx 0 d
  settled : ∀ place, starts place → PlaceSettled ctx d (depth ctx d) place

theorem finished {docs : List (String × Json)}
    (hstart : Succeeds ctx {} (docs.map fun doc => .register doc.1 doc.2) start)
    (h : Succeeds ctx start (places.map .generate) d)
    (hplaces : ∀ place, starts place ↔ place ∈ places) :
    Finished ctx (start.store.library ctx.files) starts d := by
  have hconsistent := hstart.reaches.consistent consistent_empty
  refine ⟨?_, h.reaches.consistent hconsistent, (hstart.append h).built, fun place hplace => ?_⟩
  · exact generated_warranted h (fun place hplace => (hplaces place).mpr hplace)
      (registered_warranted hstart)
  · obtain ⟨t, id, k, hid, hk, hsettles⟩ := generated_settled h hconsistent place
      ((hplaces place).mp hplace)
    have hsound := (h.reaches.consistent hconsistent).store
    exact ⟨id, t, hid, hsettles.mono hsound hk (hsound.bound hid)⟩

/-- Over documents that are registered first, runs that generate the same places in any order have
types at the same places: those of the schemas that the documents and the places call for. Where a
schema is asked for in one way only, its type has the same name in both. -/
theorem names_settled {docs : List (String × Json)}
    (hstart : Succeeds ctx {} (docs.map fun doc => .register doc.1 doc.2) start)
    (hkeys : (start.store.library ctx.files).KeysOnce)
    (hsame : ∀ place, place ∈ places ↔ place ∈ others)
    (hd : Succeeds ctx start (places.map .generate) d)
    (he : Succeeds ctx start (others.map .generate) e) :
    (∀ place, (d.graph.typeAt? place).isSome ↔ (e.graph.typeAt? place).isSome) ∧
      ∀ place, (start.store.library ctx.files).NamedOnce ctx.settings (· ∈ places) place →
        (d.graph.typeAt? place).map d.graph.qualifiedName =
          (e.graph.typeAt? place).map e.graph.qualifiedName := by
  have hd : Finished ctx _ (· ∈ places) d := finished hstart hd fun _ => Iff.rfl
  have he : Finished ctx _ (· ∈ places) e := finished hstart he hsame
  have hplaces : ∀ place, (d.graph.typeAt? place).isSome ↔ (e.graph.typeAt? place).isSome :=
    fun place => (typed_iff_asked hkeys hd.consistent hd.built hd.warranted hd.settled place).trans
      (typed_iff_asked hkeys he.consistent he.built he.warranted he.settled place).symm
  refine ⟨hplaces, fun place honce => ?_⟩
  cases ha : d.graph.typeAt? place with
  | none =>
    have hnone := mt (hplaces place).mpr
    rw [ha] at hnone
    rw [Option.not_isSome_iff_eq_none.mp (hnone nofun)]
    rfl
  | some a =>
    have hsome := (hplaces place).mp (by rw [ha]; rfl)
    obtain ⟨b, hb⟩ := Option.isSome_iff_exists.mp hsome
    have hnamed := named_once hkeys hd.warranted hd.consistent.placed he.warranted
      he.consistent.placed honce ha hb
    rw [hb, Option.map_some, Option.map_some, (Prod.mk.inj hnamed).2]

-- A class that stands in a property of one document and is referred to from another one.
private def orderContext : Context := ⟨{}, ⟨[], []⟩⟩

private def homeSchema : Json :=
  .object [("type", .string "object"),
    ("properties", .object [("home", .object [("type", .string "object")])])]

private def workSchema : Json :=
  .object [("type", .string "object"),
    ("properties", .object [("work", .object [("$ref", .string "a.json#/properties/home")])])]

private def orderSteps (documents : List String) : List Step :=
  [.register "mem:///a.json" homeSchema, .register "mem:///b.json" workSchema] ++
    documents.map fun document => .generate (.root document)

private def orderStart : Draft :=
  { store :=
      (({} : Store).register "mem:///a.json" homeSchema).register "mem:///b.json" workSchema }

private def orderNext (document : String) (d : Draft) : Draft :=
  ((Step.generate (.root document)).action orderContext |>.run d).2

private def orderDraft (first second : String) :
    Draft := orderNext second (orderNext first orderStart)

private def qualifiedNameAt (d : Draft) (place : Location) : Option String :=
  (d.graph.typeAt? place).map d.graph.qualifiedName

@[mk_iff] private structure OrderOutcome (first second name : String) : Prop where
  before : ((Step.generate (.root first)).action orderContext |>.run
    orderStart).1.toOption = some ()
  after : ((Step.generate (.root second)).action orderContext |>.run
    (orderNext first orderStart)).1.toOption = some ()
  name : qualifiedNameAt (orderDraft first second) ⟨"mem:///a.json", "/properties/home"⟩ = some name

private theorem inline_outcome : OrderOutcome "mem:///a.json" "mem:///b.json" "A.Home" :=
  (orderOutcome_iff _ _ _).mpr (by decide +kernel)

private theorem reference_outcome : OrderOutcome "mem:///b.json" "mem:///a.json" "Home" :=
  (orderOutcome_iff _ _ _).mpr (by decide +kernel)

private theorem order_step {document : String} {d e : Draft} {rest : List Step}
    (h : ((Step.generate (.root document)).action orderContext |>.run d).1.toOption = some ())
    (hrest : Succeeds orderContext (orderNext document d) rest e) :
    Succeeds orderContext d (.generate (.root document) :: rest) e := .of_run _ h hrest

private theorem order_succeeds {first second name : String} (h : OrderOutcome first second name) :
    Succeeds orderContext {} (orderSteps [first, second]) (orderDraft first second) :=
  .step rfl (.step rfl (order_step h.before (order_step h.after (.done _))))

/-- The class stands inside another one if the document around it comes first, and outside if the
document that refers to it does. -/
theorem names_by_order :
    Succeeds orderContext {} (orderSteps ["mem:///a.json", "mem:///b.json"])
      (orderDraft "mem:///a.json" "mem:///b.json") ∧
    Succeeds orderContext {} (orderSteps ["mem:///b.json", "mem:///a.json"])
      (orderDraft "mem:///b.json" "mem:///a.json") ∧
    qualifiedNameAt (orderDraft "mem:///a.json" "mem:///b.json")
      ⟨"mem:///a.json", "/properties/home"⟩ = some "A.Home" ∧
    qualifiedNameAt (orderDraft "mem:///b.json" "mem:///a.json")
      ⟨"mem:///a.json", "/properties/home"⟩ = some "Home" :=
  ⟨order_succeeds inline_outcome, order_succeeds reference_outcome, inline_outcome.name,
    reference_outcome.name⟩

private def orderLibrary : Library := orderStart.store.library orderContext.files

private theorem order_documents (name : String) (content : Json)
    (h : orderLibrary name = .ok content) : (name, content) ∈ orderStart.store.documents :=
  mem_documents (fetch_nothing []) h

private theorem order_generates {first second name : String} (h : OrderOutcome first second name) :
    Succeeds orderContext orderStart ([.root first, .root second].map .generate)
      (orderDraft first second) :=
  order_step h.before (order_step h.after (.done _))

theorem names_settled_roots :
    qualifiedNameAt (orderDraft "mem:///a.json" "mem:///b.json") (.root "mem:///a.json") =
      some "A" ∧
    qualifiedNameAt (orderDraft "mem:///b.json" "mem:///a.json") (.root "mem:///a.json") =
      some "A" ∧
    ((orderDraft "mem:///b.json" "mem:///a.json").graph.typeAt?
      ⟨"mem:///a.json", "/properties/home"⟩).isSome := by
  have hstart : Succeeds orderContext {} ([("mem:///a.json", homeSchema),
      ("mem:///b.json", workSchema)].map fun doc => .register doc.1 doc.2) orderStart :=
    .step rfl (.step rfl (.done _))
  have hkeys : orderLibrary.KeysOnce :=
    Library.keysOnce_of_parts order_documents (by decide +kernel)
  have hplain : orderLibrary.Uncombined :=
    Library.uncombined_of_parts order_documents (by decide +kernel)
  obtain ⟨hplaces, hnames⟩ := names_settled hstart hkeys (by simp [or_comm])
    (order_generates inline_outcome) (order_generates reference_outcome)
  have hfirst : qualifiedNameAt (orderDraft "mem:///a.json" "mem:///b.json")
      (.root "mem:///a.json") = some "A" := by decide +kernel
  refine ⟨hfirst, (hnames _ (hplain.namedOnce rfl)).symm.trans hfirst, (hplaces _).mp ?_⟩
  have hnamed := inline_outcome.name
  unfold qualifiedNameAt at hnamed
  exact Option.isSome_map.symm.trans (by rw [hnamed]; rfl)

end SchemaBeans.Run
