import Mathlib.Tactic.MkIffOfInductiveProp
import SchemaBeans.Proofs.Generation.Mixtures
import SchemaBeans.Proofs.Run.Accumulation

/-! # Discriminators of merged schemas

A member that is reached by reference passes no discriminator on. The first such member with one
becomes what the merged schema extends, unless this extends something itself, and nothing else
that it says is merged. -/
namespace SchemaBeans

open Json (overlay)

namespace Drafting

/-- The keywords that a member reached by reference does not pass on. -/
def familyKeywords : List String := ["discriminator", "deserializationClassProperty"]

/-- What stands under a keyword, anchored in its document. -/
def anchored (document : String) : Option Json → Except Fault (Option Json)
  | none => .ok none
  | some v => (v.anchor document).map some

mutual

/-- What an ingredient says under a keyword where it stands. -/
def Ingredient.sayInline (key : String) : Ingredient → Except Fault (Option Json)
  | .plain met => anchored met.document (met.content.member? key)
  | .merged met members => do
    let said ← sayAll key members none
    let own ← anchored met.document (met.content.member? key)
    anchored met.document (overlay said own)

/-- What the ingredients that are not reached by reference say under a keyword, each over what those
before it say. -/
def sayAll (key : String) : List Ingredient → Option Json → Except Fault (Option Json)
  | [], old => .ok old
  | part :: rest, old =>
    if part.met.byReference then sayAll key rest old
    else do
      let said ← part.sayInline key
      sayAll key rest (overlay old said)

end

variable {key document : String} {part : Ingredient} {parts : List Ingredient} {sofar all : AllOf}
  {v w content own : Json}

theorem member?_merge (hv : v.Inline) (hw : w.Inline) (key : String) :
    (v.merge w).member? key = overlay (v.member? key) (w.member? key) := by
  obtain ⟨members, rfl, -⟩ := hv.once
  obtain ⟨source, rfl, hsource⟩ := hw.once
  rw [Json.merge_objects]
  exact Json.lookup_mergeMembers hsource members key

/-- Neither data nor a reference stands under the keyword, nor do members. -/
def Ordinary (key : String) : Prop := key ∉ dataKeywords ++ ["$ref", "allOf"]

theorem Ordinary.ne (h : Ordinary key) {other : String} (hother : other ∈ ["$ref", "allOf"]) :
    key ≠ other :=
  fun heq => h (List.mem_append_right _ (heq ▸ hother))

theorem ordinary_family (h : key ∈ familyKeywords) : Ordinary key := by
  have hall : ∀ keyword ∈ familyKeywords, keyword ∉ dataKeywords ++ ["$ref", "allOf"] := by decide
  exact hall key h

theorem Ordinary.anchored (hkey : Ordinary key) (h : v.Inline) (hw : v.anchor document = .ok w) :
    anchored document (v.member? key) = .ok (w.member? key) := by
  obtain ⟨-, members, out, rfl, rfl, hout⟩ := h.anchored hw
  rcases Json.anchored_lookup (fun hdata => hkey (List.mem_append_left _ hdata))
    (hkey.ne (by decide)) hout with ⟨hx, hy⟩ | ⟨x, y, hx, hy, hanchor⟩
  · rw [Json.member?, Json.member?, hx, hy]
    rfl
  · rw [Json.member?, Json.member?, hx, hy, Drafting.anchored, hanchor]
    rfl

theorem Ordinary.beside (hkey : Ordinary key) (h : content.Inline)
    (hown : (ownContent content).anchor document = .ok own) :
    Drafting.anchored document (content.member? key) = .ok (own.member? key) := by
  have hsame : (ownContent content).member? key = content.member? key := by
    obtain ⟨members, rfl, hdistinct⟩ := h.once
    exact hdistinct.lookup_remove (hkey.ne (by decide))
  rw [← hsame]
  exact hkey.anchored (inline_own h) hown

section Family

variable (hkey : key ∈ familyKeywords)

include hkey

theorem member?_extended (h : v.Inline) (parent : Option Location) :
    (extended parent v).member? key = v.member? key := by
  obtain ⟨members, rfl, -⟩ := h.once
  have hne : key ≠ "extends" := fun heq => absurd (heq ▸ hkey) (by decide)
  cases parent with
  | none => rfl
  | some place =>
    refine (Json.lookup_put members "extends" _ key).trans ?_
    rw [if_neg hne]
    rfl

theorem member?_withoutFamily (h : v.Inline) : (withoutFamily v).member? key = none := by
  obtain ⟨members, rfl, hdistinct⟩ := h.once
  have hfirst := hdistinct.remove "discriminator"
  show (Json.Members.remove (Json.Members.remove members "discriminator")
    "deserializationClassProperty").lookup key = none
  rcases List.mem_pair.mp hkey with rfl | rfl
  · rw [hfirst.lookup_remove (by decide), hdistinct.lookup_removed]
  · exact hfirst.lookup_removed _

theorem member?_whole (hmerged : all.merged.Inline) (hcontent : content.Inline)
    (hown : (ownContent content).anchor document = .ok own) (parent : Option Location) :
    ((extended parent all.merged).merge own).member? key =
      overlay (all.merged.member? key) (own.member? key) := by
  rw [member?_merge (inline_extended hmerged parent) ((inline_own hcontent).anchored hown).1,
    member?_extended hkey hmerged]

theorem member?_passed (hsofar : sofar.merged.Inline) (hv : v.Inline) (met : Met) :
    (sofar.merged.merge (met.passed v)).member? key =
      if met.byReference then sofar.merged.member? key
      else overlay (sofar.merged.member? key) (v.member? key) := by
  rw [member?_merge hsofar (inline_passed met hv), Met.passed]
  split
  · rw [member?_withoutFamily hkey hv]
    rfl
  · rfl

end Family

mutual

theorem said_sayInline (hkey : key ∈ familyKeywords) : ∀ (part : Ingredient) {v : Json},
    (∀ said ∈ part.contents, said.Inline) → part.said = .ok v →
      part.sayInline key = .ok (v.member? key)
  | .plain met, v, h, hv =>
    (ordinary_family hkey).anchored (h met.content (List.mem_singleton_self _)) hv
  | .merged met members, v, h, hv => by
    rw [said_merged] at hv
    obtain ⟨whole, hwhole, hv⟩ := ok_of_bind hv
    obtain ⟨all, own, hall, hown, rfl⟩ := mixture_ok hwhole
    obtain ⟨hmembers, hlast⟩ := List.forall_mem_append.mp h
    have hcontent := List.forall_mem_singleton.mp hlast
    have hmerged := mix_inline members hmembers Json.inline_nothing hall
    have hsaid : sayAll key members none = .ok (all.merged.member? key) :=
      mix_sayAll hkey members hmembers Json.inline_nothing hall
    have hout := (ordinary_family hkey).anchored (mixture_inline hmembers hcontent hwhole) hv
    rw [member?_whole hkey hmerged hcontent hown] at hout
    rw [Ingredient.sayInline, hsaid, (ordinary_family hkey).beside hcontent hown]
    exact hout

theorem mix_sayAll (hkey : key ∈ familyKeywords) : ∀ (parts : List Ingredient) {sofar all : AllOf},
    (∀ said ∈ contentsOf parts, said.Inline) → sofar.merged.Inline →
      mix parts sofar = .ok all → sayAll key parts (sofar.merged.member? key) =
        .ok (all.merged.member? key)
  | [], _, _, _, _, hall => by
    cases hall
    rfl
  | part :: rest, sofar, all, h, hsofar, hall => by
    obtain ⟨hfirst, hrest⟩ := List.forall_mem_append.mp h
    rw [sayAll]
    cases hadopted : part.adoptable && !sofar.settled with
    | true =>
      rw [mix_adopted hadopted] at hall
      rw [if_pos (Met.byReference_of_parent (Bool.and_eq_true_iff.mp hadopted).1)]
      exact @mix_sayAll hkey rest
        { sofar with settled := true, parent := part.met.parent } all hrest
        hsofar hall
    | false =>
      rw [mix_taken hadopted] at hall
      obtain ⟨content, hcontent, hall⟩ := ok_of_bind hall
      have hsaid := part.said_inline hfirst hcontent
      have hlater := mix_sayAll hkey rest hrest (hsofar.merge (inline_passed part.met hsaid)) hall
      rw [member?_passed hkey hsofar hsaid] at hlater
      split
      · rename_i href
        rwa [if_pos href] at hlater
      · rename_i href
        rw [if_neg href] at hlater
        rw [said_sayInline hkey part hfirst hcontent]
        exact hlater

end

/-- The first member that can become what is extended does, and is passed over. -/
theorem mix_first_parent : ∀ (parts : List Ingredient) {sofar : AllOf} {first : Ingredient},
    sofar.settled = false → parts.find? Ingredient.adoptable = some first →
      mix parts sofar = mix (parts.eraseP Ingredient.adoptable)
        { sofar with settled := true, parent := first.met.parent }
  | [], _, _, _, hfirst => by cases hfirst
  | part :: rest, sofar, first, hsettled, hfirst => by
    cases hparent : part.adoptable with
    | true =>
      rw [List.find?_cons_of_pos hparent] at hfirst
      cases hfirst
      rw [List.eraseP_cons_of_pos hparent, mix_adopted (by rw [hparent, hsettled]; rfl)]
    | false =>
      rw [List.find?_cons_of_neg (by simp [hparent])] at hfirst
      rw [List.eraseP_cons_of_neg (by simp [hparent]), mix_taken (by rw [hparent]; rfl),
        mix_taken (by rw [hparent]; rfl)]
      exact bind_congr fun content =>
        @mix_first_parent rest
          { sofar with merged := sofar.merged.merge (part.met.passed content) }
          first hsettled hfirst

theorem mix_parent : ∀ (parts : List Ingredient) {sofar all : AllOf}, sofar.settled = true →
    mix parts sofar = .ok all → all.parent = sofar.parent
  | [], _, _, _, hall => by
    cases hall
    rfl
  | part :: rest, sofar, all, hsettled, hall => by
    rw [mix_taken (by simp [hsettled])] at hall
    obtain ⟨content, -, hall⟩ := ok_of_bind hall
    exact @mix_parent rest { sofar with merged := sofar.merged.merge (part.met.passed content) } all
      hsettled hall

theorem started_open (hcontent : content.Inline) (hnone : content.member? "extends" = none) :
    (started content).settled = false := by
  obtain ⟨members, rfl, hdistinct⟩ := hcontent.once
  show ((Json.Members.remove members "allOf").lookup "extends").isSome = false
  rw [hdistinct.lookup_remove (by decide)]
  exact congrArg Option.isSome hnone

theorem member?_extends {place : Location} (hv : v.Inline) (hcontent : content.Inline)
    (hnone : content.member? "extends" = none)
    (hown : (ownContent content).anchor document = .ok own) :
    ((extended (some place) v).merge own).member? "extends" =
      some (.object [("$ref", .string place.text)]) := by
  have hself := inline_own hcontent
  rw [member?_merge (inline_extended hv _) (hself.anchored hown).1]
  have hextends : Ordinary "extends" := by
    unfold Ordinary
    decide
  have hlast := hextends.beside hcontent hown
  rw [hnone] at hlast
  rw [← Except.ok.inj hlast]
  obtain ⟨members, rfl, -⟩ := hv.once
  refine (Json.lookup_put members "extends" _ "extends").trans ?_
  rw [if_pos rfl]

end Drafting

namespace Run

open Drafting

variable {ctx : Context} {full : Library} {d e : Draft} {steps : List Step} {id made : NodeId}
  {st : Store} {parts : List Ingredient}

/-- Under the keywords that make a family the second schema, the merge of the first one, says what
the first one and its inline members say, and what these are merged from in the same way. Unless the
first one extends something itself, the first of the members that are reached by reference and carry
a discriminator is what the second one extends, and else it is as if the member was not there. -/
structure PassesOn (st : Store) (id made : NodeId) (parts : List Ingredient) : Prop where
  family : ∀ key ∈ familyKeywords, ∃ said own, sayAll key parts none = .ok said ∧
    anchored (st.node id).location.document ((st.node id).content.member? key) = .ok own ∧
    (st.node made).content.member? key = overlay said own
  parent : (st.node id).content.member? "extends" = none → ∀ first place,
    parts.find? Ingredient.adoptable = some first → first.met.parent = some place →
      (st.node made).content.member? "extends" = some (.object [("$ref", .string place.text)]) ∧
      ∃ all own, mix (parts.eraseP Ingredient.adoptable) ⟨.object [], true, some place⟩ = .ok all ∧
        (ownContent (st.node id).content).anchor (st.node id).location.document = .ok own ∧
        (st.node made).content = (extended (some place) all.merged).merge own

/-- So it is if its members are all objects, on every level. -/
def Heir (st : Store) (id made : NodeId) : Prop :=
  ∃ parts, (∀ others, Comprises st id others ↔ others = parts) ∧
    ((∀ said ∈ contentsOf parts ++ [(st.node id).content], said.IsMap) → PassesOn st id made parts)

theorem MergedFrom.inherits (h : MergedFrom ctx st id made) : Heir st id made := by
  obtain ⟨lib, barred, k, hkeys, ht, hmerges⟩ := h.merges
  obtain ⟨parts, hparts, hmixture⟩ := merges_mixture hkeys ht k id made h.shape hmerges
  refine ⟨parts, fun others => ⟨fun hothers => hothers.unique hparts, fun heq => heq ▸ hparts⟩, ?_⟩
  intro hmaps
  obtain ⟨all, own, hall, hown, hmade⟩ := mixture_ok (hmixture hmaps).mixture
  obtain ⟨hmembers, hself⟩ := List.forall_mem_append.mp hmaps
  have hinline := hparts.inline ht hmembers
  have hcontent := inline_of_read (ht.read id hmerges.has) (List.forall_mem_singleton.mp hself)
  have hmerged := mix_inline parts hinline Json.inline_nothing hall
  refine ⟨fun key hkey => ?_, fun hnone first place hfirst hplace => ?_⟩
  · rw [hmade]
    exact ⟨_, _, mix_sayAll hkey parts hinline Json.inline_nothing hall,
      (ordinary_family hkey).beside hcontent hown,
        member?_whole hkey hmerged hcontent hown all.parent⟩
  · rw [mix_first_parent parts (started_open hcontent hnone) hfirst, hplace] at hall
    have hparent : all.parent = some place := mix_parent _ rfl hall
    rw [hparent] at hmade
    rw [hmade]
    exact ⟨member?_extends hmerged hcontent hnone hown, all, own, hall, hown, rfl⟩

/-- Whatever is merged from objects, in a run in which each document keeps its name, has its
discriminator from itself and from its inline members, and extends the first member by reference
that carries one. -/
theorem merges_inherit (s : Steady ctx full steps d) (hid : d.store.Has id)
    (hshape : (d.store.node id).shape = .allOf) (h : Arrives ctx d id made e) :
    Heir e.store id made :=
  (s.mergedFrom hid hshape h).inherits

-- A schema with two members by reference that carry discriminators, and an inline one with a
-- discriminator of its own.
private def heirContext : Context := ⟨{}, ⟨[], []⟩⟩

private def heirSchema : Json := .object [("allOf", .array
  [.object [("$ref", .string "b.json")], .object [("$ref", .string "c.json")],
    .object [("allOf", .array [.object [("$ref", .string "c.json")]]),
      ("discriminator", .string "own")]])]

private def heirParent : Json :=
  .object [("discriminator", .string "kind"), ("properties", .object [("x", .object [])])]

private def heirMember : Json :=
  .object [("discriminator", .string "sort"), ("deserializationClassProperty", .string "class")]

private def heirSteps : List Step := [.register "mem:///a.json" heirSchema,
  .register "mem:///b.json" heirParent, .register "mem:///c.json" heirMember,
  .generate (.root "mem:///a.json")]

private def heirStart : Draft :=
  { store := ((({} : Store).register "mem:///a.json" heirSchema).register "mem:///b.json"
      heirParent).register "mem:///c.json" heirMember }

private def heirDraft : Draft :=
  ((Step.generate (.root "mem:///a.json")).action heirContext |>.run heirStart).2

private def heirLibrary : Library := heirStart.store.library heirContext.files

private def heirRun : Except Fault NodeId × Draft := (mergeAllOf heirContext 3 ⟨0⟩).run heirDraft

private def heirText (names : List String) : Option String :=
  ((heirRun.2.store.node ⟨5⟩).content.descend? names).bind Json.string?

@[mk_iff] private structure HeirOutcome : Prop where
  ends : isEndless ((Step.generate (.root "mem:///a.json")).action heirContext |>.run
    heirStart).1 = false
  known : 0 < heirDraft.store.nodes.size
  shape : (heirDraft.store.node ⟨0⟩).shape = .allOf
  answer : heirRun.1.toOption = some ⟨5⟩
  keys : Json.keysOf (some (heirRun.2.store.node ⟨5⟩).content) = ["extends", "discriminator"]
  parent : heirText ["extends", "$ref"] = some "mem:///b.json"
  family : heirText ["discriminator"] = some "own"

private theorem heir_reaches (h : HeirOutcome) : Reaches heirContext {} heirSteps heirDraft :=
  .of_run _ rfl (.of_run _ rfl (.of_run _ rfl (.of_run _ h.ends (.done _))))

theorem merges_inherit_heir : Heir heirRun.2.store ⟨0⟩ ⟨5⟩ ∧
    heirText ["extends", "$ref"] = some "mem:///b.json" ∧
    heirText ["discriminator"] = some "own" := by
  have outcome : HeirOutcome := heirOutcome_iff.mpr (by decide +kernel)
  have s : Steady heirContext heirLibrary heirSteps heirDraft := by
    refine ⟨?_, fun name content h => absurd h (fetch_nothing [] name content), ?_,
      heir_reaches outcome⟩
    · exact Library.keysOnce_of_parts (fun _ _ h => mem_documents (fetch_nothing []) h)
        (by decide +kernel)
    · simp only [heirSteps, List.forall_mem_cons]
      exact ⟨rfl, rfl, rfl, trivial, List.forall_mem_nil _⟩
  have hrun : (mergeAllOf heirContext 3 ⟨0⟩).run heirDraft = (.ok ⟨5⟩, heirRun.2) :=
    run_of_fst (eq_ok_of_toOption outcome.answer)
  exact ⟨merges_inherit s outcome.known outcome.shape (.now hrun), outcome.parent,
    outcome.family⟩

-- A document whose `allOf` is looked up as a schema with a discriminator, and another document
-- in its place whose `allOf` has a member without one.
private def formerSchema : Json := .object [("allOf",
  .object [("type", .string "object"), ("discriminator", .string "kind")])]

private def settledSchema : Json := .object [("extends", .object [("type", .string "object")]),
  ("allOf", .array [.object [("$ref", .string "a.json#/allOf")]])]

private def laterSchema : Json := .object [("allOf", .array [.object [("type", .string "object")]])]

private def laterSteps : List Step := [.register "mem:///a.json" formerSchema,
  .register "mem:///u.json" settledSchema, .generate (.root "mem:///u.json"),
  .register "mem:///a.json" laterSchema, .generate (.root "mem:///a.json")]

private def formerStart : Draft :=
  { store := (({} : Store).register "mem:///a.json" formerSchema).register "mem:///u.json"
      settledSchema }

private def formerDraft : Draft :=
  ((Step.generate (.root "mem:///u.json")).action heirContext |>.run formerStart).2

private def laterStart : Draft :=
  { formerDraft with store := formerDraft.store.register "mem:///a.json" laterSchema }

private def laterDraft : Draft :=
  ((Step.generate (.root "mem:///a.json")).action heirContext |>.run laterStart).2

private def laterRun : Except Fault NodeId × Draft := (mergeAllOf heirContext 1 ⟨4⟩).run laterDraft

private def laterMet : Met := metAt laterRun.2.store ⟨⟨5⟩, false⟩

@[mk_iff] private structure LaterOutcome : Prop where
  first : isEndless ((Step.generate (.root "mem:///u.json")).action heirContext |>.run
    formerStart).1 = false
  second : isEndless ((Step.generate (.root "mem:///a.json")).action heirContext |>.run
    laterStart).1 = false
  known : 4 < laterDraft.store.nodes.size
  shape : (laterDraft.store.node ⟨4⟩).shape = .allOf
  answer : laterRun.1.toOption = some ⟨1⟩
  members : memberIndices (laterRun.2.store.node ⟨4⟩) = [0]
  found : laterRun.2.store.id? ((laterRun.2.store.node ⟨4⟩).location.below
    ["allOf", toString 0]) = some ⟨5⟩
  inline : false = decide ((laterRun.2.store.node ⟨5⟩).location ≠
    (laterRun.2.store.node ⟨4⟩).location.below ["allOf", toString 0])
  member : (laterRun.2.store.node ⟨5⟩).shape ≠ .allOf
  maps : ∀ said ∈ [laterMet.content, (laterRun.2.store.node ⟨4⟩).content], said.IsMap
  silent : (laterMet.content.member? "discriminator").isNone = true
  own : ((laterRun.2.store.node ⟨4⟩).content.member? "discriminator").isNone = true
  kept : ((laterRun.2.store.node ⟨1⟩).content.member? "discriminator").isSome = true

private theorem later_reaches (h : LaterOutcome) :
    Reaches heirContext {} laterSteps laterDraft := by
  have hlast : Reaches heirContext laterStart [.generate (.root "mem:///a.json")] laterDraft :=
    .of_run _ h.second (.done _)
  have hregister : Reaches heirContext formerDraft
      [.register "mem:///a.json" laterSchema, .generate (.root "mem:///a.json")] laterDraft :=
    .step (r := .ok ()) rfl (by simp) hlast
  unfold formerDraft at hregister
  exact .of_run _ rfl (.of_run _ rfl (.of_run _ h.first hregister))

private theorem later_comprises (h : LaterOutcome) :
    Comprises laterRun.2.store ⟨4⟩ [.plain laterMet] := by
  have hfound : laterRun.2.store.Found ⟨4⟩ ["allOf", toString 0] ⟨⟨5⟩, false⟩ :=
    ⟨h.found, h.inline⟩
  have hparts : ∀ settled, Lists laterRun.2.store ⟨4⟩ [0] settled [.plain laterMet] :=
    fun settled =>
    @Lists.plain _ _ _ _ settled ⟨⟨5⟩, false⟩ _ hfound rfl h.member .nothing
  unfold Comprises
  rw [h.members]
  exact hparts _

/-- A merge may answer with a schema that has a discriminator although neither the schema that is
merged nor a member has one. -/
theorem merge_keeps_discriminator : ¬ ∀ (ctx : Context) (steps : List Step) (d e : Draft)
    (id made : NodeId) (f : Nat) (parts : List Ingredient), Reaches ctx {} steps d →
    d.store.Has id → (d.store.node id).shape = .allOf →
    (mergeAllOf ctx f id).run d = (.ok made, e) → Comprises e.store id parts →
    (∀ said ∈ contentsOf parts ++ [(e.store.node id).content], said.IsMap) →
      PassesOn e.store id made parts := by
  intro h
  have outcome : LaterOutcome := laterOutcome_iff.mpr (by decide +kernel)
  have hrun : (mergeAllOf heirContext 1 ⟨4⟩).run laterDraft = (.ok ⟨1⟩, laterRun.2) :=
    run_of_fst (eq_ok_of_toOption outcome.answer)
  obtain ⟨said, own, hsaid, hown, hkept⟩ := (h _ _ _ _ _ _ _ _ (later_reaches outcome) outcome.known
    outcome.shape hrun (later_comprises outcome) outcome.maps).family "discriminator" (by decide)
  have hinline : laterMet.byReference = false := byReference_metAt _ _
  have hnothing : sayAll "discriminator" [.plain laterMet] none = .ok none := by
    rw [sayAll, Ingredient.met, hinline, Ingredient.sayInline,
      Option.isNone_iff_eq_none.mp outcome.silent]
    rfl
  rw [Option.isNone_iff_eq_none.mp outcome.own] at hown
  cases hnothing.symm.trans hsaid
  cases hown
  have hlost := congrArg Option.isSome hkept
  rw [outcome.kept] at hlost
  cases hlost

end Run

end SchemaBeans
