import Mathlib.Tactic.MkIffOfInductiveProp
import SchemaBeans.Proofs.Generation.MixtureRuns
import SchemaBeans.Proofs.Run.Accumulation

/-! # Members that say nothing

A member without keywords says nothing: wherever it stands among the members of a schema, or
among those of a member, the schema is merged to what it is merged to without it. That does not
hold of the member `true`, which is no object and takes the place of everything before it. -/
namespace SchemaBeans

namespace Drafting

variable {blank : Met → Prop} {met : Met} {part : Ingredient}
  {parts padded inner padding : List Ingredient} {sofar all : AllOf} {content : Json}
  {document : String}

/-- The second list is the first one with plain members inserted, on any level. The predicate tells
what these are like. A schema among whose members some are inserted says the same besides its
members. -/
inductive Padded (blank : Met → Prop) : List Ingredient → List Ingredient → Prop
  | nothing : Padded blank [] []
  | plain {parts padded : List Ingredient} (met : Met) (h : Padded blank parts padded) :
      Padded blank (.plain met :: parts) (.plain met :: padded)
  | merged {parts padded inner padding : List Ingredient} {met other : Met}
      (hroute : other.route = met.route) (hdocument : other.document = met.document)
      (hown : ownContent other.content = ownContent met.content)
      (hinner : Padded blank inner padding)
      (h : Padded blank parts padded) :
      Padded blank (.merged met inner :: parts) (.merged other padding :: padded)
  | inserted {parts padded : List Ingredient} {met : Met} (hblank : blank met)
      (h : Padded blank parts padded) : Padded blank parts (.plain met :: padded)

/-- A member that is an empty object. -/
def Met.IsEmpty (met : Met) : Prop := met.content = .object []

def Met.IsIdle (met : Met) : Prop := met.IsEmpty ∧ met.parent = none

theorem merge_nothing {v : Json} (h : v.Inline) : v.merge (.object []) = v := by
  obtain ⟨members, rfl, -⟩ := h.once
  rw [Json.merge_objects, Json.mergeMembers]

theorem Met.IsEmpty.said (h : met.IsEmpty) :
    (Ingredient.plain met).said = .ok (.object []) ∧ met.passed (.object []) = .object [] := by
  constructor
  · rw [Ingredient.said, show met.content = .object [] from h]
    rfl
  · unfold Met.passed
    split <;> rfl

/-- What comes out depends on how a member is met and on what it says. -/
theorem mix_cons_congr {other : Ingredient} (hroute : other.met.route = part.met.route)
    (hsaid : other.said = part.said) (hinline : ∀ said ∈ part.contents, said.Inline)
    (hrest : ∀ sofar : AllOf, sofar.merged.Inline → mix padded sofar = mix parts sofar)
    (hsofar : sofar.merged.Inline) : mix (other :: padded) sofar = mix (part :: parts) sofar := by
  have hparent : other.met.parent = part.met.parent := by rw [Met.parent, hroute, Met.parent]
  have hadoptable : other.adoptable = part.adoptable := congrArg Option.isSome hparent
  cases hadopted : part.adoptable && !sofar.settled with
  | true =>
    rw [mix_adopted hadopted, mix_adopted (hadoptable ▸ hadopted), hparent]
    exact hrest _ hsofar
  | false =>
    rw [mix_taken hadopted, mix_taken (hadoptable ▸ hadopted), hsaid]
    cases hcontent : part.said with
    | error fault => rfl
    | ok content =>
      have hpassed : other.met.passed content = part.met.passed content := by
        rw [Met.passed, Met.byReference, hroute, Met.passed, Met.byReference]
      have hmerged := hsofar.merge (inline_passed part.met (part.said_inline hinline hcontent))
      show mix padded { sofar with merged := sofar.merged.merge (other.met.passed content) } =
        mix parts { sofar with merged := sofar.merged.merge (part.met.passed content) }
      rw [hpassed]
      exact hrest _ hmerged

theorem mixture_congr {other : Json} (hown : ownContent other = ownContent content)
    (hparts : mix padded (started content) = mix parts (started content)) :
    mixture document other padded = mixture document content parts := by
  have hstarted : started other = started content := by rw [started, hown, started]
  unfold mixture
  rw [hstarted, hparts, hown]

/-- Members that say nothing change nothing, on whatever level they are inserted. -/
theorem mix_padded (h : Padded Met.IsIdle parts padded) : ∀ {sofar : AllOf},
    (∀ said ∈ contentsOf parts, said.Inline) → sofar.merged.Inline →
      mix padded sofar = mix parts sofar := by
  induction h with
  | nothing => exact fun _ _ => rfl
  | @plain parts padded met _ ih =>
    intro sofar hsaid hsofar
    obtain ⟨hfirst, hrest⟩ := List.forall_mem_append.mp hsaid
    exact mix_cons_congr rfl rfl hfirst (fun _ hmerged => ih hrest hmerged) hsofar
  | @merged parts padded inner padding met other hroute hdocument hown _ _ ihinner ih =>
    intro sofar hsaid hsofar
    obtain ⟨hfirst, hrest⟩ := List.forall_mem_append.mp hsaid
    have hmembers := (List.forall_mem_append.mp hfirst).1
    have hsame : (Ingredient.merged other padding).said = (Ingredient.merged met inner).said := by
      rw [said_merged, said_merged, hdocument,
        mixture_congr hown (ihinner hmembers Json.inline_nothing)]
    exact mix_cons_congr hroute hsame hfirst (fun _ hmerged => ih hrest hmerged) hsofar
  | @inserted parts padded met hidle _ ih =>
    intro sofar hsaid hsofar
    obtain ⟨hempty, hparent⟩ := hidle
    have hnot : ((Ingredient.plain met).adoptable && !sofar.settled) = false := by
      rw [Ingredient.adoptable, Ingredient.met, hparent]
      rfl
    obtain ⟨hnothing, hpassed⟩ := hempty.said
    rw [mix_taken hnot, hnothing]
    show mix padded { sofar with merged := sofar.merged.merge (met.passed (.object [])) } = _
    rw [hpassed, merge_nothing hsofar]
    exact ih hsaid hsofar

theorem LegibleAll.insert (h : LegibleAll parts) (hpadded : Padded Met.IsIdle parts padded)
    (hinline : ∀ said ∈ contentsOf parts, said.Inline) : LegibleAll padded := by
  induction hpadded with
  | nothing => exact .nothing
  | plain met _ ih =>
    cases h with
    | plain h => exact .plain (ih h (List.forall_mem_append.mp hinline).2)
  | merged _ hdocument hown hinner _ ihinner ih =>
    cases h with
    | merged hmixture hlegible hmembers hrest =>
    obtain ⟨hfirst, hlast⟩ := List.forall_mem_append.mp hinline
    have hsaid := (List.forall_mem_append.mp hfirst).1
    refine .merged ?_ hlegible (ihinner hmembers hsaid) (ih hrest hlast)
    rw [← hmixture, hdocument]
    exact mixture_congr hown (mix_padded hinner hsaid Json.inline_nothing)
  | inserted _ _ ih => exact .plain (ih h hinline)

variable {files : FileSystem} {lib : Library} {st : Store} {id : NodeId} {indices : List Nat}
  {settled : Bool} {found : Store.Child}

theorem idle_of_isEmpty (ht : st.Truthful files lib) (hid : st.Has found.id)
    (h : (metAt st found).IsEmpty) : (metAt st found).IsIdle := by
  have hcontent : (st.node found.id).content = .object [] := h
  have hread := (ht.read found.id hid).keywords
  rw [hcontent] at hread
  have hnone : (st.node found.id).keywords.family = none := by
    rw [← Except.ok.inj (show Except.ok {} = Except.ok (st.node found.id).keywords from hread)]
    rfl
  refine ⟨h, ?_⟩
  rw [parent_metAt, hnone]
  simp

/-- So none that a merge meets becomes what is extended. -/
theorem Lists.idle (ht : st.Truthful files lib) (h : Lists st id indices settled padded) :
    ∀ {parts : List Ingredient}, Padded Met.IsEmpty parts padded →
      Padded Met.IsIdle parts padded := by
  induction h with
  | nothing =>
    intro parts hpadded
    cases hpadded
    exact .nothing
  | parent hfound _ _ ih =>
    intro parts hpadded
    cases hpadded with
    | plain _ h => exact .plain _ (ih h)
    | inserted hempty h =>
      exact .inserted (idle_of_isEmpty ht (hfound.has ht.toSound) hempty) (ih h)
  | plain hfound _ _ _ ih =>
    intro parts hpadded
    cases hpadded with
    | plain _ h => exact .plain _ (ih h)
    | inserted hempty h =>
      exact .inserted (idle_of_isEmpty ht (hfound.has ht.toSound) hempty) (ih h)
  | merged _ _ _ _ _ ihinner ih =>
    intro parts hpadded
    cases hpadded with
    | merged hroute hdocument hown hinner h =>
      exact .merged hroute hdocument hown (ihinner hinner) (ih h)

end Drafting

namespace Run

open Drafting

variable {ctx ctx' : Context} {full full' : Library} {d e d' e' : Draft} {steps steps' : List Step}
  {id made id' made' : NodeId} {st st' : Store} {parts padded : List Ingredient}

/-- The second schema stands in a document of the same name as the first one, says the same besides
its members, and has the members of the first one and more. -/
structure Pads (blank : Met → Prop) (st : Store) (id : NodeId) (st' : Store) (id' : NodeId) :
    Prop where
  document : (st'.node id').location.document = (st.node id).location.document
  own : ownContent (st'.node id').content = ownContent (st.node id).content
  members : ∃ parts padded, Comprises st id parts ∧ Comprises st' id' padded ∧
    Padded blank parts padded

/-- The schema is merged from objects, on every level. -/
def OfMaps (st : Store) (id : NodeId) : Prop :=
  ∀ parts, Comprises st id parts → ∀ said ∈ contentsOf parts ++ [(st.node id).content], said.IsMap

theorem ofMaps_of_comprises (hparts : Comprises st id parts)
    (h : ∀ said ∈ contentsOf parts ++ [(st.node id).content], said.IsMap) : OfMaps st id :=
  fun _ hothers => hothers.unique hparts ▸ h

theorem OfMaps.mixed (hmaps : OfMaps st id) (h : MergedFrom ctx st id made) : ∃ parts,
    Comprises st id parts ∧ (∀ said ∈ contentsOf parts, said.Inline) ∧
    MixedTo st id made parts := by
  obtain ⟨lib, barred, k, hkeys, ht, hmerges⟩ := h.merges
  obtain ⟨parts, hparts, hmixed⟩ := merges_mixture hkeys ht k id made h.shape hmerges
  have hinline := hparts.inline ht (List.forall_mem_append.mp (hmaps _ hparts)).1
  exact ⟨parts, hparts, hinline, hmixed (hmaps _ hparts)⟩

theorem MergedFrom.same (h : MergedFrom ctx st id made) (h' : MergedFrom ctx' st' id' made')
    (hpads : Pads Met.IsEmpty st id st' id') (hmaps : OfMaps st id) (hmaps' : OfMaps st' id') :
    (st'.node made').content = (st.node made).content ∧
      (st'.node made').keywords = (st.node made).keywords := by
  obtain ⟨_, _, _, -, ht, hmerges⟩ := h.merges
  obtain ⟨_, _, _, -, ht', hmerges'⟩ := h'.merges
  obtain ⟨parts, padded, hparts, hpadded, hinserted⟩ := hpads.members
  obtain ⟨_, kparts, hinline, hmixed⟩ := hmaps.mixed h
  obtain rfl := hparts.unique kparts
  obtain ⟨_, kpadded, -, hmixed'⟩ := hmaps'.mixed h'
  obtain rfl := hpadded.unique kpadded
  have hidle := Lists.idle ht' hpadded hinserted
  have hwhole := hmixed'.mixture
  rw [hpads.document, mixture_congr hpads.own (mix_padded hidle hinline Json.inline_nothing),
    hmixed.mixture] at hwhole
  have hcontent := (Except.ok.inj hwhole).symm
  refine ⟨hcontent, ?_⟩
  have hread := (ht.read made (hmerges.has_made ht.toSound)).keywords
  have hread' := (ht'.read made' (hmerges'.has_made ht'.toSound)).keywords
  rw [hcontent, Library.keywordsOf_anywhere hread] at hread'
  exact (Except.ok.inj hread').symm

theorem MergedFrom.again (h : MergedFrom ctx st id made)
    (hpads : Pads Met.IsEmpty st id d'.store id') (hmaps : OfMaps st id)
    (hmaps' : OfMaps d'.store id') (s' : Steady ctx' full' steps' d') (hid' : d'.store.Has id')
    (hopen : d'.merging = []) : ∃ f made' e', (mergeAllOf ctx' f id').run d' = (.ok made', e') := by
  obtain ⟨hkeys, ht⟩ := s'.truthful
  obtain ⟨parts, padded, hparts, hpadded, hinserted⟩ := hpads.members
  obtain ⟨_, kparts, hinline, hmixed⟩ := hmaps.mixed h
  obtain rfl := hparts.unique kparts
  have hidle := Lists.idle ht hpadded hinserted
  refine hpadded.run hkeys ht hid' hopen (List.forall_mem_append.mp (hmaps' _ hpadded)).1
    (hmixed.members.insert hidle hinline) ?_ hmixed.legible
  rw [hpads.document, mixture_congr hpads.own (mix_padded hidle hinline Json.inline_nothing)]
  exact hmixed.mixture

/-- In runs in which each document keeps its name, let a schema be merged from objects, and another
one have the same members and between them, on whatever level, further ones that are empty objects,
inline or by reference. It merges too, once its members are on record, and is merged to the same
content. So whatever is generated from it is made from the same keywords. -/
theorem empty_members_neutral (s : Steady ctx full steps d) (s' : Steady ctx' full' steps' d')
    (hid : d.store.Has id) (hid' : d'.store.Has id') (hshape : (d.store.node id).shape = .allOf)
    (hshape' : (d'.store.node id').shape = .allOf) (h : Arrives ctx d id made e)
    (hmaps : OfMaps e.store id) :
    (Pads Met.IsEmpty e.store id d'.store id' → OfMaps d'.store id' → d'.merging = [] →
      ∃ f made' e', (mergeAllOf ctx' f id').run d' = (.ok made', e')) ∧
    ∀ made' e', Arrives ctx' d' id' made' e' → Pads Met.IsEmpty e.store id e'.store id' →
      OfMaps e'.store id' → (e'.store.node made').content = (e.store.node made).content ∧
        (e'.store.node made').keywords = (e.store.node made).keywords := by
  have hmerged := s.mergedFrom hid hshape h
  refine ⟨fun hpads hmaps' hopen => hmerged.again hpads hmaps hmaps' s' hid' hopen, ?_⟩
  exact fun made' e' h' hpads hmaps' =>
    hmerged.same (s'.mergedFrom hid' hshape' h') hpads hmaps hmaps'

-- A schema with one member, one with an empty member after it, and one with `true` after it.
private def neutralContext : Context := ⟨{}, ⟨[], []⟩⟩

private def definition (name : String) : Location := ⟨"mem:///a.json", "/definitions/" ++ name⟩

private def neutralMembers (more : List Json) : Json :=
  .object [("allOf", .array (.object [("$ref", .string "#/definitions/p")] :: more))]

private def neutralSchema : Json := .object [("definitions", .object
  [("o", neutralMembers []), ("q", neutralMembers [.object [("$ref", .string "#/definitions/e")]]),
    ("t", neutralMembers [.bool true]),
    ("p", .object [("type", .string "string")]), ("e", .object [])])]

private def neutralSteps : List Step := [.register "mem:///a.json" neutralSchema,
  .generate (definition "o"), .generate (definition "q"), .generate (definition "t")]

private def neutralStart : Draft := { store := ({} : Store).register "mem:///a.json" neutralSchema }

private def neutralAfter (d : Draft) (name : String) : Draft :=
  ((Step.generate (definition name)).action neutralContext |>.run d).2

private def neutralDraft : Draft :=
  neutralAfter (neutralAfter (neutralAfter neutralStart "o") "q") "t"

private def neutralRun (id : NodeId) : Except Fault NodeId × Draft :=
  (mergeAllOf neutralContext 1 id).run neutralDraft

private def neutralLibrary : Library := neutralStart.store.library neutralContext.files

private def neutralMet (id : NodeId) (byReference : Bool) : Met :=
  metAt neutralDraft.store ⟨id, byReference⟩

private def isTrue : Json → Bool
  | .bool b => b
  | _ => false

private def isNothing : Json → Bool
  | .object [] => true
  | _ => false

private theorem eq_true_of_isTrue {v : Json} (h : isTrue v = true) : v = .bool true := by
  cases v with
  | bool b => exact congrArg Json.bool h
  | _ => cases h

private theorem eq_nothing_of_isNothing {v : Json} (h : isNothing v = true) : v = .object [] := by
  unfold isNothing at h
  split at h
  · rfl
  · cases h

private def neutralSchemas : List (Nat × Nat × List Nat) :=
  [(0, 2, [0]), (3, 5, [0, 1]), (6, 8, [0, 1])]

private def neutralLinks : List (Nat × Nat × Nat × Bool) :=
  [(0, 0, 1, true), (3, 0, 1, true), (6, 0, 1, true), (3, 1, 4, true), (6, 1, 7, false)]

@[mk_iff] private structure NeutralOutcome : Prop where
  first : isEndless ((Step.generate (definition "o")).action neutralContext |>.run
    neutralStart).1 = false
  second : isEndless ((Step.generate (definition "q")).action neutralContext |>.run
    (neutralAfter neutralStart "o")).1 = false
  third : isEndless ((Step.generate (definition "t")).action neutralContext |>.run
    (neutralAfter (neutralAfter neutralStart "o") "q")).1 = false
  free : neutralDraft.merging.isEmpty = true
  known : 8 < neutralDraft.store.nodes.size
  schemas : ∀ entry ∈ neutralSchemas,
    (neutralDraft.store.node ⟨entry.1⟩).shape = .allOf ∧
    (neutralDraft.store.node ⟨entry.1⟩).location.document = "mem:///a.json" ∧
    isNothing (ownContent (neutralDraft.store.node ⟨entry.1⟩).content) = true ∧
    (neutralDraft.store.node ⟨entry.1⟩).content.IsMap ∧
    (neutralRun ⟨entry.1⟩).1.toOption = some ⟨entry.2.1⟩ ∧
    memberIndices (neutralDraft.store.node ⟨entry.1⟩) = entry.2.2
  members : ∀ entry ∈ neutralLinks,
    neutralDraft.store.id? ((neutralDraft.store.node ⟨entry.1⟩).location.below
      ["allOf", toString entry.2.1]) = some ⟨entry.2.2.1⟩ ∧
    entry.2.2.2 = decide ((neutralDraft.store.node ⟨entry.2.2.1⟩).location ≠
      (neutralDraft.store.node ⟨entry.1⟩).location.below ["allOf", toString entry.2.1]) ∧
    (neutralDraft.store.node ⟨entry.2.2.1⟩).shape ≠ .allOf ∧
    (neutralDraft.store.node ⟨entry.2.2.1⟩).keywords.family.isNone = true
  map : (neutralDraft.store.node ⟨1⟩).content.IsMap
  empty : isNothing (neutralDraft.store.node ⟨4⟩).content = true
  always : isTrue (neutralDraft.store.node ⟨7⟩).content = true
  kept : Json.keysOf (some ((neutralRun ⟨0⟩).2.store.node ⟨2⟩).content) = ["type"]
  lost : Json.keysOf (some ((neutralRun ⟨6⟩).2.store.node ⟨8⟩).content) = []

section Sample

variable (outcome : NeutralOutcome) {i made j : Nat} {indices : List Nat} {byReference : Bool}
  {parts : List Ingredient} {blank : Met → Prop}

private theorem neutral_content :
    (neutralMet ⟨j⟩ byReference).content = (neutralDraft.store.node ⟨j⟩).content := by
  rw [neutralMet, metAt]

private theorem neutral_schema : (0, 2, [0]) ∈ neutralSchemas := by decide

namespace NeutralOutcome

include outcome

private theorem steady : Steady neutralContext neutralLibrary neutralSteps neutralDraft where
  keys := Library.keysOnce_of_parts (fun _ _ h => mem_documents (fetch_nothing []) h)
    (by decide +kernel)
  files name content h := absurd h (fetch_nothing [] name content)
  registers := by
    simp only [neutralSteps, List.forall_mem_cons]
    exact ⟨rfl, trivial, trivial, trivial, List.forall_mem_nil _⟩
  reaches := .of_run _ rfl (.of_run _ outcome.first (.of_run _ outcome.second
    (.of_run _ outcome.third (.done _))))

private theorem sound : neutralDraft.store.Sound := outcome.steady.truthful.2.toSound

private theorem has (h : (i, made, indices) ∈ neutralSchemas) : neutralDraft.store.Has ⟨i⟩ := by
  have hle : ∀ entry ∈ neutralSchemas, entry.1 ≤ 8 := by decide
  exact Nat.lt_of_le_of_lt (hle _ h) outcome.known

private theorem lists {index : Nat} {rest : List Nat}
    (h : (i, index, j, byReference) ∈ neutralLinks)
    (hrest : ∀ settled, Lists neutralDraft.store ⟨i⟩ rest settled parts) (settled : Bool) :
    Lists neutralDraft.store ⟨i⟩ (index :: rest) settled
      (.plain (neutralMet ⟨j⟩ byReference) :: parts) := by
  obtain ⟨hknown, href, hshape, hfamily⟩ := outcome.members _ h
  have hfound : neutralDraft.store.Found ⟨i⟩ ["allOf", toString index] ⟨⟨j⟩, byReference⟩ :=
    ⟨hknown, href⟩
  refine @Lists.plain _ _ _ _ settled ⟨⟨j⟩, byReference⟩ _ hfound ?_ hshape (hrest settled)
  rw [adopts_metAt]
  simp [Option.isNone_iff_eq_none.mp hfamily]

private theorem run (h : (i, made, indices) ∈ neutralSchemas) :
    (mergeAllOf neutralContext 1 ⟨i⟩).run neutralDraft = (.ok ⟨made⟩, (neutralRun ⟨i⟩).2) :=
  run_of_fst (eq_ok_of_toOption (outcome.schemas _ h).2.2.2.2.1)

private theorem grows (h : (i, made, indices) ∈ neutralSchemas) :
    neutralDraft.store.Grows (neutralRun ⟨i⟩).2.store :=
  ((mergeAllOf_grows 1 ⟨i⟩ neutralDraft outcome.sound (outcome.has h)).success (outcome.run h)).1

private theorem comprises (h : (i, made, indices) ∈ neutralSchemas)
    (hparts : ∀ settled, Lists neutralDraft.store ⟨i⟩ indices settled parts)
    (hg : neutralDraft.store.Grows st) : Comprises st ⟨i⟩ parts := by
  refine Comprises.grows outcome.sound hg (outcome.has h) ?_
  unfold Comprises
  rw [(outcome.schemas _ h).2.2.2.2.2]
  exact hparts _

private theorem maps (h : (i, made, indices) ∈ neutralSchemas)
    (hparts : ∀ settled, Lists neutralDraft.store ⟨i⟩ indices settled parts)
    (hmaps : ∀ said ∈ contentsOf parts, said.IsMap) (hg : neutralDraft.store.Grows st) :
    OfMaps st ⟨i⟩ := by
  refine ofMaps_of_comprises (outcome.comprises h hparts hg)
    (List.forall_mem_append.mpr ⟨hmaps, List.forall_mem_singleton.mpr ?_⟩)
  rw [hg.node (outcome.has h)]
  exact (outcome.schemas _ h).2.2.2.1

private theorem first_map : (neutralMet ⟨1⟩ true).content.IsMap := by
  rw [neutral_content]
  exact outcome.map

private theorem two (hfirst : (i, 0, 1, true) ∈ neutralLinks)
    (hother : (i, 1, j, byReference) ∈ neutralLinks) (settled : Bool) :
    Lists neutralDraft.store ⟨i⟩ [0, 1] settled
      [.plain (neutralMet ⟨1⟩ true), .plain (neutralMet ⟨j⟩ byReference)] :=
  outcome.lists hfirst (outcome.lists hother fun _ => .nothing) settled

private theorem one (settled : Bool) :
    Lists neutralDraft.store ⟨0⟩ [0] settled [.plain (neutralMet ⟨1⟩ true)] := by
  have hlink : (0, 0, 1, true) ∈ neutralLinks := by decide
  exact outcome.lists hlink (fun _ => .nothing) settled

private theorem schema_maps (hg : neutralDraft.store.Grows st) : OfMaps st ⟨0⟩ :=
  outcome.maps neutral_schema outcome.one (List.forall_mem_singleton.mpr outcome.first_map) hg

private theorem pads (h : (i, made, [0, 1]) ∈ neutralSchemas)
    (hfirst : (i, 0, 1, true) ∈ neutralLinks)
    (hother : (i, 1, j, byReference) ∈ neutralLinks)
    (hblank : blank (neutralMet ⟨j⟩ byReference)) (hg : neutralDraft.store.Grows st)
    (hg' : neutralDraft.store.Grows st') : Pads blank st ⟨0⟩ st' ⟨i⟩ := by
  obtain ⟨-, hdocument, hown, -⟩ := outcome.schemas _ neutral_schema
  obtain ⟨-, hdocument', hown', -⟩ := outcome.schemas _ h
  have hnode := hg.node (outcome.has neutral_schema)
  have hnode' := hg'.node (outcome.has h)
  have hinserted : Padded blank [.plain (neutralMet ⟨1⟩ true)]
      [.plain (neutralMet ⟨1⟩ true), .plain (neutralMet ⟨j⟩ byReference)] :=
    .plain _ (.inserted hblank .nothing)
  refine ⟨?_, ?_, _, _, outcome.comprises neutral_schema outcome.one hg,
    outcome.comprises h (outcome.two hfirst hother) hg', hinserted⟩
  · rw [hnode, hnode', hdocument, hdocument']
  · rw [hnode, hnode', eq_nothing_of_isNothing hown, eq_nothing_of_isNothing hown']

end NeutralOutcome

end Sample

private theorem neutral_outcome : NeutralOutcome :=
  neutralOutcome_iff.mpr (by decide +kernel)

/-- A member by reference that is empty changes nothing. -/
theorem empty_members_neutral_reference :
    (∃ f made e, (mergeAllOf neutralContext f ⟨3⟩).run neutralDraft = (.ok made, e)) ∧
      ((neutralRun ⟨3⟩).2.store.node ⟨5⟩).content =
      ((neutralRun ⟨0⟩).2.store.node ⟨2⟩).content := by
  have outcome := neutral_outcome
  have hempty : (neutralMet ⟨4⟩ true).IsEmpty := by
    rw [Met.IsEmpty, neutral_content, eq_nothing_of_isNothing outcome.empty]
  have hother : (3, 5, [0, 1]) ∈ neutralSchemas := by decide
  have hlink : (3, 0, 1, true) ∈ neutralLinks := by decide
  have hlink' : (3, 1, 4, true) ∈ neutralLinks := by decide
  have hmap : (neutralMet ⟨4⟩ true).content.IsMap := by
    rw [show (neutralMet ⟨4⟩ true).content = .object [] from hempty]
    exact ⟨[], rfl, List.nodup_nil⟩
  have hmaps : ∀ {st : Store}, neutralDraft.store.Grows st → OfMaps st ⟨3⟩ :=
    outcome.maps hother (outcome.two hlink hlink')
      (List.forall_mem_cons.mpr ⟨outcome.first_map, List.forall_mem_singleton.mpr hmap⟩)
  have hg := outcome.grows neutral_schema
  have hg' := outcome.grows hother
  obtain ⟨hmerges, hsame⟩ := empty_members_neutral outcome.steady outcome.steady
    (outcome.has neutral_schema)
    (outcome.has hother) (outcome.schemas _ neutral_schema).1 (outcome.schemas _ hother).1
    (.now (outcome.run neutral_schema)) (outcome.schema_maps hg)
  refine ⟨hmerges (outcome.pads hother hlink hlink' hempty hg (refl _)) (hmaps (refl _))
    (List.isEmpty_iff.mp outcome.free), ?_⟩
  exact (hsame ⟨5⟩ _ (.now (outcome.run hother))
    (outcome.pads hother hlink hlink' hempty hg hg') (hmaps hg')).1

/-- A member `true` takes the place of those before it. -/
theorem true_member_erases : ¬ ∀ (ctx ctx' : Context) (full full' : Library)
    (steps steps' : List Step) (d e d' e' : Draft) (id made id' made' : NodeId),
    Steady ctx full steps d → Steady ctx' full' steps' d' → d.store.Has id → d'.store.Has id' →
    (d.store.node id).shape = .allOf → (d'.store.node id').shape = .allOf →
    Arrives ctx d id made e → Arrives ctx' d' id' made' e' →
    Pads (fun met => met.IsEmpty ∨ met.content = .bool true) e.store id e'.store id' →
      (e'.store.node made').content = (e.store.node made).content := by
  intro h
  have outcome := neutral_outcome
  have halways : (neutralMet ⟨7⟩ false).content = .bool true := by
    rw [neutral_content, eq_true_of_isTrue outcome.always]
  have hother : (6, 8, [0, 1]) ∈ neutralSchemas := by decide
  have hlink : (6, 0, 1, true) ∈ neutralLinks := by decide
  have hlink' : (6, 1, 7, false) ∈ neutralLinks := by decide
  have hsame := h _ _ _ _ _ _ _ _ _ _ ⟨0⟩ ⟨2⟩ ⟨6⟩ ⟨8⟩ outcome.steady outcome.steady
    (outcome.has neutral_schema) (outcome.has hother) (outcome.schemas _ neutral_schema).1
    (outcome.schemas _ hother).1 (.now (outcome.run neutral_schema)) (.now (outcome.run hother))
    (outcome.pads hother hlink hlink' (.inr halways) (outcome.grows neutral_schema)
      (outcome.grows hother))
  have hkept := outcome.kept
  rw [← hsame, outcome.lost] at hkept
  cases hkept

end Run

end SchemaBeans
