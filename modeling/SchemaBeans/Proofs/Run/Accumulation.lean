import Mathlib.Tactic.MkIffOfInductiveProp
import SchemaBeans.Proofs.Generation.Contributions
import SchemaBeans.Proofs.Generation.Documents
import SchemaBeans.Proofs.Generation.Coverage
import SchemaBeans.Proofs.Generation.Members
import SchemaBeans.Proofs.Generation.Trails
import SchemaBeans.Proofs.Run.Steps

/-! # What merged schemas list

In a run in which a name stands for one document, a merged schema lists the property keys of all
that its members and it itself say, in the order in which they occur first, and requires every
key that any of them requires. A document that takes the place of another one may find schemas
made from the old one where its own should be. -/
namespace SchemaBeans.Run

open Drafting

variable {ctx : Context} {full : Library} {d e : Draft} {steps : List Step} {id made : NodeId}

section Documents

variable (hfiles : ∀ name content, Store.fetch ctx.files name = .ok content →
  full name = .ok content)

include hfiles

theorem Step.serving (step : Step)
    (hstep : step.Registers fun name content => full name = .ok content) :
    Serving ctx full (step.action ctx) := by
  by_cases hreset : step = .reset
  · subst hreset
    exact fun d _ => Follows.change (fun _ => served_empty hfiles) trivial
  · exact Stepwise.action (P := Serving ctx full)
      { pure := fun _ _ _ => .pure trivial
        throw := fun _ _ _ => .throw
        bind := .bind
        lift := fun _ _ _ => .lift fun _ _ => trivial
        register := register_serving
        generate := generate_serving } step hreset hstep

/-- Every state that is reached over the documents is served by them. -/
theorem Reaches.served (h : Reaches ctx d steps e)
    (hsteps : ∀ step ∈ steps, step.Registers fun name content => full name = .ok content)
    (hd : Served ctx full d) : Served ctx full e := by
  induction h with
  | done => exact hd
  | @step d e f step rest r hrun hends _ ih =>
    have hserving := Step.serving hfiles step (hsteps step List.mem_cons_self) d hd
    exact ih (fun later hlater => hsteps later (List.mem_cons_of_mem step hlater))
      ((hserving _ _ hrun hends).1 hd)

end Documents

/-- The second schema, the merge of the first one, lists what the first one's members and it itself
list, if each of them lists keys: all property keys in the order in which they occur first, and the
keys that any of them requires. -/
def Accumulates (st : Store) (id made : NodeId) : Prop :=
  ∃ parts, (∀ others, Contributes st id others ↔ others = parts) ∧
    ((∀ part ∈ parts, part.Listing) →
      memberKeys (st.node made).keywords = (parts.flatMap Json.propertyKeys).eraseDups ∧
      ∀ key, key ∈ (st.node made).keywords.requiredKeys ↔ key ∈ parts.flatMap Json.requiredKeys)

/-- The second schema is the merge of the first one, and all that is on record is found in documents
whose objects have each name once. -/
structure MergedFrom (ctx : Context) (st : Store) (id made : NodeId) : Prop where
  merges : ∃ lib barred k, lib.KeysOnce ∧ st.Truthful ctx.files lib ∧ Merges st barred k id made
  shape : (st.node id).shape = .allOf

/-- A state that is reached over documents each of which keeps its name. -/
structure Steady (ctx : Context) (full : Library) (steps : List Step) (d : Draft) : Prop where
  keys : full.KeysOnce
  files : ∀ name content, Store.fetch ctx.files name = .ok content → full name = .ok content
  registers : ∀ step ∈ steps, step.Registers fun name content => full name = .ok content
  reaches : Reaches ctx {} steps d

/-- The schema has been merged in the first state, or merges now. -/
inductive Arrives (ctx : Context) (d : Draft) (id made : NodeId) : Draft → Prop
  | before {barred : List NodeId} {k : Nat} (h : Merges d.store barred k id made) :
      Arrives ctx d id made d
  | now {f : Nat} {e : Draft} (h : (mergeAllOf ctx f id).run d = (.ok made, e)) :
      Arrives ctx d id made e

theorem Steady.truthful (s : Steady ctx full steps d) : (d.store.library ctx.files).KeysOnce ∧
    d.store.Truthful ctx.files (d.store.library ctx.files) := by
  have hserved := s.reaches.served s.files s.registers (served_empty s.files)
  exact ⟨fun place members hcontains => s.keys place members (hcontains.mono hserved.sub),
    hserved.warranted.store⟩

theorem Steady.mergedFrom (s : Steady ctx full steps d) (hid : d.store.Has id)
    (hshape : (d.store.node id).shape = .allOf) (h : Arrives ctx d id made e) :
    MergedFrom ctx e.store id made := by
  obtain ⟨hlib, ht⟩ := s.truthful
  cases h with
  | before hmerges => exact ⟨⟨_, _, _, hlib, ht, hmerges⟩, hshape⟩
  | now hrun =>
    have hlearns := ((mergeAllOf_learns ctx _ id d ht hid hshape).success hrun).1
    obtain ⟨hgrows, -, hmerges⟩ := (mergeAllOf_grows _ id d ht.toSound hid).success hrun
    rw [← hgrows.node hid] at hshape
    exact ⟨⟨_, _, _, hlib, hlearns ht, hmerges⟩, hshape⟩

theorem MergedFrom.accumulates {st : Store} (h : MergedFrom ctx st id made) :
    Accumulates st id made := by
  obtain ⟨lib, barred, k, hkeys, ht, hmerges⟩ := h.merges
  obtain ⟨parts, hparts, hassembled⟩ := merges_assembled
    (fun _ (h : Json.Listing _) => h.once) hkeys ht k id made h.shape hmerges
  refine ⟨parts, fun others => ⟨fun hothers => hothers.unique hparts, fun heq => heq ▸ hparts⟩, ?_⟩
  intro hlisting
  have hgathers := (hassembled hlisting).1.gathers
  have hread := (ht.read made (hmerges.has_made ht.toSound)).keywords
  refine ⟨(hgathers.toTabular.keywords hread).trans hgathers.propertyKeys, fun key => ?_⟩
  rw [hgathers.listing.keywords hread]
  exact hgathers.requiredKeys key

/-- In every state that is reached over documents each of which keeps its name, every schema that
has been merged accumulates what its members and it itself list, and so does every schema that
merges now. -/
theorem merges_accumulate (hkeys : full.KeysOnce)
    (hfiles : ∀ name content, Store.fetch ctx.files name = .ok content → full name = .ok content)
    (hsteps : ∀ step ∈ steps, step.Registers fun name content => full name = .ok content)
    (h : Reaches ctx {} steps d) (hid : d.store.Has id)
    (hshape : (d.store.node id).shape = .allOf) :
    (∀ barred k made, Merges d.store barred k id made → Accumulates d.store id made) ∧
      ∀ f made e, (mergeAllOf ctx f id).run d = (.ok made, e) → Accumulates e.store id made := by
  have s : Steady ctx full steps d := ⟨hkeys, hfiles, hsteps, h⟩
  exact ⟨fun barred k made hmerges => (s.mergedFrom hid hshape (.before hmerges)).accumulates,
    fun f made e hrun => (s.mergedFrom hid hshape (.now hrun)).accumulates⟩

-- A schema with a member in another document and a member that has a member itself.
private def listContext : Context := ⟨{}, ⟨[], []⟩⟩

private def listOf (keys required : List String) : Json.Members :=
  [("properties", .object (keys.map fun key => (key, .object []))),
    ("required", .array (required.map .string))]

private def listSchema : Json := .object (("allOf", .array
    [.object [("$ref", .string "b.json")],
      .object (("allOf", .array [.object (listOf ["y", "x"] ["y"])]) :: listOf ["z"] [])]) ::
  listOf ["x", "w"] ["x"])

private def listMember : Json := .object (listOf ["x", "v"] ["x"])

private def listSteps : List Step := [.register "mem:///a.json" listSchema,
  .register "mem:///b.json" listMember, .generate (.root "mem:///a.json")]

private def listStart : Draft :=
  { store :=
      (({} : Store).register "mem:///a.json" listSchema).register "mem:///b.json" listMember }

private def listDraft : Draft :=
  ((Step.generate (.root "mem:///a.json")).action listContext |>.run listStart).2

private def listLibrary : Library := listStart.store.library listContext.files

private def listRun : Except Fault NodeId × Draft := (mergeAllOf listContext 2 ⟨0⟩).run listDraft

@[mk_iff] private structure ListOutcome : Prop where
  ends : isEndless ((Step.generate (.root "mem:///a.json")).action listContext |>.run
    listStart).1 = false
  known : 0 < listDraft.store.nodes.size
  shape : (listDraft.store.node ⟨0⟩).shape = .allOf
  answer : listRun.1.toOption = some ⟨5⟩
  keys : memberKeys (listRun.2.store.node ⟨5⟩).keywords = ["x", "v", "y", "z", "w"]
  required : (listRun.2.store.node ⟨5⟩).keywords.requiredKeys = ["x", "y"]

private theorem list_reaches (h : ListOutcome) : Reaches listContext {} listSteps listDraft :=
  .of_run _ rfl (.of_run _ rfl (.of_run _ h.ends (.done _)))

theorem merges_accumulate_list : Accumulates listRun.2.store ⟨0⟩ ⟨5⟩ ∧
    memberKeys (listRun.2.store.node ⟨5⟩).keywords = ["x", "v", "y", "z", "w"] ∧
    (listRun.2.store.node ⟨5⟩).keywords.requiredKeys = ["x", "y"] := by
  have outcome : ListOutcome := listOutcome_iff.mpr (by decide +kernel)
  have hkeys : listLibrary.KeysOnce :=
    Library.keysOnce_of_parts (fun _ _ h => mem_documents (fetch_nothing []) h) (by decide +kernel)
  have hfiles : ∀ name content, Store.fetch listContext.files name = .ok content →
      listLibrary name = .ok content := fun name content h => absurd h
      (fetch_nothing [] name content)
  have hsteps : ∀ step ∈ listSteps,
      step.Registers fun name content => listLibrary name = .ok content := by
    refine List.forall_mem_cons.mpr ⟨rfl, List.forall_mem_cons.mpr ⟨rfl, ?_⟩⟩
    exact List.forall_mem_cons.mpr ⟨trivial, List.forall_mem_nil _⟩
  obtain ⟨-, hall⟩ := merges_accumulate hkeys hfiles hsteps (list_reaches outcome) outcome.known
    outcome.shape
  have hrun : (mergeAllOf listContext 2 ⟨0⟩).run listDraft = (.ok ⟨5⟩, listRun.2) :=
    run_of_fst (eq_ok_of_toOption outcome.answer)
  exact ⟨hall 2 ⟨5⟩ _ hrun, outcome.keys, outcome.required⟩

-- A document whose `allOf` is taken for a schema, and another document in its place whose
-- `allOf` has a member.
private def stalePlace : Location := .root "mem:///a.json"

private def staleSchema : Json := .object [("allOf", .object [("type", .string "string")])]

private def freshSchema : Json :=
  .object [("allOf", .array [.object [("properties", .object [("x", .object [])])]])]

private def staleSteps : List Step := [.register "mem:///a.json" staleSchema,
  .generate (stalePlace.below ["allOf"]), .register "mem:///a.json" freshSchema,
  .generate stalePlace]

private def staleStart : Draft := { store := ({} : Store).register "mem:///a.json" staleSchema }

private def staleMiddle : Draft :=
  ((Step.generate (stalePlace.below ["allOf"])).action listContext |>.run staleStart).2

private def staleNext : Draft :=
  { staleMiddle with store := staleMiddle.store.register "mem:///a.json" freshSchema }

private def staleDraft : Draft := ((Step.generate stalePlace).action listContext |>.run staleNext).2

private def staleRun : Except Fault NodeId × Draft := (mergeAllOf listContext 1 ⟨1⟩).run staleDraft

private def staleParts : List Json :=
  [(staleRun.2.store.node ⟨2⟩).content] ++ [(staleRun.2.store.node ⟨1⟩).content]

/-- What the runs come to: the merge answers with the schema of the first document. -/
@[mk_iff] private structure StaleOutcome : Prop where
  first : isEndless ((Step.generate (stalePlace.below ["allOf"])).action listContext |>.run
    staleStart).1 = false
  second : isEndless ((Step.generate stalePlace).action listContext |>.run staleNext).1 = false
  known : 1 < staleDraft.store.nodes.size
  shape : (staleDraft.store.node ⟨1⟩).shape = .allOf
  answer : staleRun.1.toOption = some ⟨0⟩
  members : memberIndices (staleRun.2.store.node ⟨1⟩) = [0]
  found : staleRun.2.store.id? ((staleRun.2.store.node ⟨1⟩).location.below
    ["allOf", toString 0]) = some ⟨2⟩
  inline : false = decide ((staleRun.2.store.node ⟨2⟩).location ≠
    (staleRun.2.store.node ⟨1⟩).location.below ["allOf", toString 0])
  member : (staleRun.2.store.node ⟨2⟩).shape ≠ .allOf
  listing : (staleParts.all fun part => decide part.Listing) = true
  keys : memberKeys (staleRun.2.store.node ⟨0⟩).keywords = []
  union : (staleParts.flatMap Json.propertyKeys).eraseDups = ["x"]

private theorem stale_reaches (h : StaleOutcome) :
    Reaches listContext {} staleSteps staleDraft := by
  have hlast : Reaches listContext staleNext [.generate stalePlace] staleDraft :=
    .of_run _ h.second (.done _)
  have hregister : Reaches listContext staleMiddle
      [.register "mem:///a.json" freshSchema, .generate stalePlace] staleDraft :=
    .step (r := .ok ()) rfl (by simp) hlast
  unfold staleMiddle at hregister
  exact .step (r := .ok ()) rfl (by simp) (.of_run _ h.first hregister)

private theorem stale_contributes (h : StaleOutcome) :
    Contributes staleRun.2.store ⟨1⟩ staleParts := by
  have hfound : staleRun.2.store.Found ⟨1⟩ ["allOf", toString 0] ⟨⟨2⟩, false⟩ :=
    ⟨h.found, h.inline⟩
  refine ⟨_, ?_, rfl⟩
  rw [h.members]
  exact @Says.part _ _ _ _ _ ⟨⟨2⟩, false⟩ _ hfound rfl h.member .nothing

/-- A merge may answer with a schema of a document that another one has taken the place of. -/
theorem merge_keeps_replaced : ¬ ∀ (ctx : Context) (steps : List Step) (d e : Draft)
    (id made : NodeId) (f : Nat) (parts : List Json), Reaches ctx {} steps d → d.store.Has id →
    (d.store.node id).shape = .allOf → (mergeAllOf ctx f id).run d = (.ok made, e) →
    Contributes e.store id parts → (∀ part ∈ parts, part.Listing) →
      memberKeys (e.store.node made).keywords = (parts.flatMap Json.propertyKeys).eraseDups := by
  intro h
  have outcome : StaleOutcome := staleOutcome_iff.mpr (by decide +kernel)
  have hlisting : ∀ part ∈ staleParts, part.Listing := fun part hpart =>
    of_decide_eq_true (List.all_eq_true.mp outcome.listing part hpart)
  have hrun : (mergeAllOf listContext 1 ⟨1⟩).run staleDraft = (.ok ⟨0⟩, staleRun.2) :=
    run_of_fst (eq_ok_of_toOption outcome.answer)
  have hunion := h _ _ _ _ _ _ _ _ (stale_reaches outcome) outcome.known outcome.shape hrun
    (stale_contributes outcome) hlisting
  rw [outcome.union] at hunion
  exact absurd (outcome.keys.symm.trans hunion) (by simp)

end SchemaBeans.Run
