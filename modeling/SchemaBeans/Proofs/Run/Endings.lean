import SchemaBeans.Proofs.Generation.Trails
import SchemaBeans.Proofs.Run.Steps

/-! # Runs that come to an end

A run over documents in memory never loses itself, however classes refer to each other, as long
as no schema has members to merge or branches and no array comes back to itself through items
alone. Every state of such a run has its schemas in the documents, so the next generation ends
too. -/
namespace SchemaBeans.Run

open Drafting Relation

variable {ctx : Context} {docs : List (String × Json)} {d e : Draft} {steps : List Step}

/-- The documents of the state are among these, and its schemas stand in them. -/
structure Draws (ctx : Context) (docs : List (String × Json)) (d : Draft) : Prop where
  faithful : d.store.Faithful ctx.files (d.store.library ctx.files)
  among : ∀ name content, d.store.library ctx.files name = .ok content → (name, content) ∈ docs

def StaysDrawn (ctx : Context) (docs : List (String × Json)) (d e : Draft) : Prop :=
  Draws ctx docs d → Draws ctx docs e

instance : IsPreorder Draft (StaysDrawn ctx docs) where
  refl _ := id
  trans _ _ _ h k := k ∘ h

/-- The step comes to an end in every state that draws on the documents, and so does the next
one. -/
def Closing {α : Type} (ctx : Context) (docs : List (String × Json)) (x : Drafting α) : Prop :=
  ∀ d, Draws ctx docs d → Completes (StaysDrawn ctx docs) x d fun _ _ => True

theorem draws_onward {lib : Library} (hlib : d.store.library ctx.files = lib)
    (h : Onward ctx lib d e) : StaysDrawn ctx docs d e := by
  intro hd
  subst hlib
  have he := h.stays hd.faithful
  refine ⟨?_, ?_⟩ <;> rw [he.library]
  · exact he
  · exact hd.among

/-- The state has no other documents than the whole library. -/
theorem Draws.sub (h : Draws ctx docs d) (hnames : Json.Distinct docs) :
    (d.store.library ctx.files).Sub (Store.library ctx.files { documents := docs }) := by
  intro name content hcontent
  unfold Store.library
  rw [hnames.lookup (h.among name content hcontent)]

theorem register_closing (hnames : Json.Distinct docs) {name : String} {content : Json}
    (hdoc : (name, content) ∈ docs) :
    Closing ctx docs
      (modify fun draft : Draft => { draft with store := draft.store.register name content }) := by
  intro d hd
  have hlookup : ∀ other, (d.store.register name content).library ctx.files other =
      if other = name then .ok content else d.store.library ctx.files other := by
    intro other
    unfold Store.library Store.register
    rw [List.lookup_cons]
    by_cases hother : other = name
    · simp [hother]
    · simp [hother, beq_eq_false_iff_ne.mpr hother]
  refine .change (fun _ => ⟨hd.faithful.register fun other found hfound => ?_,
    fun other found hfound => ?_⟩) trivial
  · rw [hlookup]
    split
    · rename_i hother
      have hboth := hnames.lookup (hd.among other found hfound)
      rw [hother, hnames.lookup hdoc] at hboth
      rw [Option.some.inj hboth]
    · exact hfound
  · rw [hlookup] at hfound
    split at hfound
    · rename_i hother
      cases hfound
      exact hother ▸ hdoc
    · exact hd.among other found hfound

theorem Closing.bind {α β : Type} {x : Drafting α} {f : α → Drafting β} (hx : Closing ctx docs x)
    (hf : ∀ a, Closing ctx docs (f a)) : Closing ctx docs (x >>= f) :=
  fun d hd => (hx d hd).bind fun a e hde _ => hf a e (hde hd)

theorem draws_empty (hmemory : ∀ name content, Store.fetch ctx.files name ≠ .ok content) :
    Draws ctx docs {} :=
  ⟨Store.faithful_of_empty ctx.files [], fun name content h => absurd h (hmemory name content)⟩

section Documents

variable (hnames : Json.Distinct docs)
  (hmemory : ∀ name content, Store.fetch ctx.files name ≠ .ok content)
  (hlib : (Store.library ctx.files { documents := docs }).Uncombined)
  (hcycle : ∀ place,
    ¬ TransGen (Store.library ctx.files { documents := docs }).ItemsTo place place)

include hnames hmemory hlib hcycle

theorem generate_closing (place : Location) : Closing ctx docs (generate ctx place) := by
  intro d hd
  have hsub := hd.sub hnames
  refine (generate_completes hmemory hd.faithful (hlib.anti hsub) (fun other hother => ?_)
    place).along fun e hde => draws_onward rfl hde
  exact hcycle other (TransGen.mono (fun _ _ hitems => hitems.mono hsub) _ _ hother)

theorem Step.closing (step : Step)
    (hstep : step.Registers fun name content => (name, content) ∈ docs) :
    Closing ctx docs (step.action ctx) := by
  by_cases hreset : step = .reset
  · subst hreset
    intro d _
    have hrun : ((Step.reset).action ctx).run d = (.ok (), {}) := rfl
    refine ⟨fun r t hx => ?_, fun r t hx _ => ?_⟩
    all_goals
      rw [hrun] at hx
      cases hx
    · exact ⟨by simp, fun _ _ => trivial⟩
    · exact ⟨fun _ => draws_empty hmemory, fun _ _ => trivial⟩
  · exact Stepwise.action (P := Closing ctx docs)
      { pure := fun _ _ _ => .pure trivial
        throw := fun hfault _ _ => .throw hfault
        bind := .bind
        lift := fun he _ _ => .lift he fun _ _ => trivial
        register := register_closing hnames
        generate := generate_closing hnames hmemory hlib hcycle } step hreset hstep

/-- Every state that is reached over the documents draws on them. -/
theorem Reaches.draws (h : Reaches ctx d steps e)
    (hsteps : ∀ step ∈ steps, step.Registers fun name content => (name, content) ∈ docs)
    (hd : Draws ctx docs d) : Draws ctx docs e := by
  induction h with
  | done => exact hd
  | @step d e f step rest r hrun hends _ ih =>
    have hclosing := Step.closing hnames hmemory hlib hcycle step
      (hsteps step List.mem_cons_self) d hd
    exact ih (fun later hlater => hsteps later (List.mem_cons_of_mem step hlater))
      ((hclosing.follows _ _ hrun hends).1 hd)

end Documents

/-- Over finitely many documents in memory that have no members to merge and no branches, and in
which no row of arrays comes back to an array through `items`, every generation ends with a type or
a fault: from any state that requests over these documents lead to, and for any place, however
classes refer to each other. The same is true of every other request over the documents. -/
theorem generate_terminates (hnames : Json.Distinct docs)
    (hmemory : ∀ name content, Store.fetch ctx.files name ≠ .ok content)
    (hlib : (Store.library ctx.files { documents := docs }).Uncombined)
    (hcycle : ∀ place,
      ¬ TransGen (Store.library ctx.files { documents := docs }).ItemsTo place place)
    (hsteps : ∀ step ∈ steps, step.Registers fun name content => (name, content) ∈ docs)
    (h : Reaches ctx {} steps d) :
    (∀ place, ((generate ctx place).run d).1 ≠ .error .endless) ∧
      ∀ step : Step, (step.Registers fun name content => (name, content) ∈ docs) →
        ((step.action ctx).run d).1 ≠ .error .endless := by
  have hd := h.draws hnames hmemory hlib hcycle hsteps (draws_empty hmemory)
  refine ⟨fun place => ?_, fun step hstep => ?_⟩
  · exact ((generate_closing hnames hmemory hlib hcycle place d hd).ends _ _ rfl).1
  · exact ((Step.closing hnames hmemory hlib hcycle step hstep d hd).ends _ _ rfl).1

-- A tree whose nodes extend a class that names the tree as its child and holds trees.
private def treeDocument : Json := .object [("type", .string "object"),
  ("extends", .object [("$ref", .string "base.json")]),
  ("properties", .object [("children", .object [("type", .string "array"),
    ("items", .object [("$ref", .string "#")])])])]

private def baseDocument : Json := .object [("type", .string "object"),
  ("discriminator", .object [("propertyName", .string "kind"),
    ("children", .array [.object [("$ref", .string "tree.json")]])]),
  ("additionalProperties", .object [("$ref", .string "tree.json")])]

private def treeDocuments : List (String × Json) :=
  [("mem:///tree.json", treeDocument), ("mem:///base.json", baseDocument)]

private def treeContext : Context := ⟨{}, ⟨[], []⟩⟩

private def treeLibrary : Library := Store.library treeContext.files { documents := treeDocuments }

private def treeDraft : Draft :=
  let first := ((Step.register "mem:///tree.json" treeDocument).action treeContext |>.run {}).2
  let second := ((Step.register "mem:///base.json" baseDocument).action treeContext |>.run first).2
  ((Step.generate (.root "mem:///base.json")).action treeContext |>.run second).2

private def treeSteps : List Step := [.register "mem:///tree.json" treeDocument,
  .register "mem:///base.json" baseDocument, .generate (.root "mem:///base.json")]

private theorem tree_memory :
    ∀ name content, Store.fetch treeContext.files name ≠ .ok content := fetch_nothing []

private theorem tree_documents (name : String) (content : Json)
    (h : treeLibrary name = .ok content) : (name, content) ∈ treeDocuments :=
  mem_documents tree_memory h

private def hasItemsHere (value : Json) : Bool :=
  match value.member? "items" with
  | none => false
  | some items =>
    match Store.keywordsOf (.root "") items with
    | .ok keywords => keywords.reference == some "#"
    | .error _ => false

private theorem tree_items {place next : Location} (h : treeLibrary.ItemsTo place next) :
    next = .root "mem:///tree.json" := by
  obtain ⟨content, hcontent, hitems, hleads, hschema⟩ := h.leads
  obtain ⟨document, hdocument, hpart⟩ := hcontent.part tree_documents
  have hall : (treeDocuments.all fun document => document.2.parts.all fun part =>
      !Library.leadsToItems part || (document.1 == "mem:///tree.json" && hasItemsHere part)) =
        true := by
    decide +kernel
  have hboth := List.all_eq_true.mp (List.all_eq_true.mp hall _ hdocument) content hpart
  simp only [hitems, Bool.not_true, Bool.false_or, Bool.and_eq_true, beq_iff_eq] at hboth
  obtain ⟨hname, hhere⟩ := hboth
  unfold hasItemsHere at hhere
  split at hhere
  · cases hhere
  rename_i items hmember
  split at hhere
  · rename_i keywords hread
    rcases Library.keywordsOf_cases hread with ⟨-, rfl⟩ | ⟨members, rfl, hmembers⟩
    · cases hhere
    have hbelow : treeLibrary.Contains (place.below ["items"]) (.object members) := by
      refine hcontent.below ["items"] ?_
      cases content with
      | object outer =>
        rw [Json.descend?_cons]
        exact Option.bind_eq_some_iff.mpr ⟨_, hmember, rfl⟩
      | _ => cases hmember
    have hrefers : treeLibrary.Refers (place.below ["items"]) (.root "mem:///tree.json") := by
      refine .intro hbelow hmembers (by simpa using hhere) ?_
      rw [show (place.below ["items"]).document = "mem:///tree.json" from hname]
      rfl
    have htree : treeLibrary.HasSchema (.root "mem:///tree.json") :=
      .keywords ⟨rfl, rfl⟩ rfl rfl rfl
    exact hschema.final.unique htree.final hleads (.single hrefers)
  · cases hhere

private theorem tree_cycle (place : Location) : ¬ TransGen treeLibrary.ItemsTo place place := by
  refine Library.no_cycle_of_items (fun {a b c} h k => ?_) place
  obtain rfl := tree_items h
  obtain ⟨content, hcontent, hitems, -⟩ := k.leads
  have hroot : treeLibrary.Contains (.root "mem:///tree.json") treeDocument := ⟨rfl, rfl⟩
  obtain rfl := Library.contains_unique hroot hcontent
  exact absurd hitems (by decide +kernel)

theorem generate_terminates_tree : Reaches treeContext {} treeSteps treeDraft ∧
    treeDraft.graph.size = 2 ∧
    ∀ place, ((generate treeContext place).run treeDraft).1 ≠ .error .endless := by
  have hreaches : Reaches treeContext {} treeSteps treeDraft :=
    .of_run _ rfl (.of_run _ rfl (.of_run _ (by decide +kernel) (.done _)))
  have hnames : Json.Distinct treeDocuments := by decide +kernel
  have huncombined : treeLibrary.Uncombined :=
    Library.uncombined_of_parts tree_documents (by decide +kernel)
  have hsteps : ∀ step ∈ treeSteps,
      step.Registers fun name content => (name, content) ∈ treeDocuments := by
    simp [treeSteps, treeDocuments, Step.Registers]
  exact ⟨hreaches, by decide +kernel,
    (generate_terminates hnames tree_memory huncombined tree_cycle hsteps hreaches).1⟩

end SchemaBeans.Run
