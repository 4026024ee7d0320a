import SchemaBeans.Proofs.Generation.Contributions

/-! # Merging as a computation

What a schema with members is merged to can be computed from the members as they are met: from what
each of them says itself and in which document, whether it was reached by reference, and whether it
can become what is extended. A merge that ends has made what comes out of this computation. -/
namespace SchemaBeans

open Json (Distinct)

def Json.IsMap (v : Json) : Prop := ∃ members, v = .object members ∧ Distinct members

instance (v : Json) : Decidable v.IsMap :=
  match v with
  | .object members => decidable_of_iff (Distinct members)
      ⟨fun h => ⟨members, rfl, h⟩, fun ⟨_, hobject, h⟩ => Json.object.inj hobject ▸ h⟩
  | .null | .bool _ | .number _ | .string _ | .array _ =>
    .isFalse fun ⟨_, hobject, _⟩ => nomatch hobject

namespace Drafting

/-- How a merge comes to a member: where it stands, or by a reference to a schema, of which the
location is kept if it carries a discriminator. -/
inductive Route where
  | inline
  | reference (parent : Option Location)

/-- A member as a merge meets it. -/
structure Met where
  route : Route
  document : String
  content : Json

namespace Met

def byReference (met : Met) : Bool :=
  match met.route with
  | .inline => false
  | .reference _ => true

def parent (met : Met) : Option Location :=
  match met.route with
  | .inline => none
  | .reference parent => parent

def passed (met : Met) (content : Json) : Json :=
  if met.byReference then withoutFamily content else content

theorem byReference_of_parent {met : Met} (h : met.parent.isSome = true) :
    met.byReference = true := by
  unfold parent at h
  unfold byReference
  cases hroute : met.route with
  | inline =>
    rw [hroute] at h
    cases h
  | reference => rfl

end Met

/-- What is merged: a schema as it stands, or one that has to be merged itself before. -/
inductive Ingredient where
  | plain (met : Met)
  | merged (met : Met) (members : List Ingredient)

def Ingredient.met : Ingredient → Met
  | plain met => met
  | merged met _ => met

def Ingredient.adoptable (part : Ingredient) : Bool := part.met.parent.isSome

def started (content : Json) : AllOf :=
  ⟨.object [], ((ownContent content).member? "extends").isSome, none⟩

mutual

def Ingredient.said : Ingredient → Except Fault Json
  | .plain met => met.content.anchor met.document
  | .merged met members => do
    let all ← mix members (started met.content)
    let own ← (ownContent met.content).anchor met.document
    ((extended all.parent all.merged).merge own).anchor met.document

/-- What ingredients amount to one after the other. -/
def mix : List Ingredient → AllOf → Except Fault AllOf
  | [], sofar => .ok sofar
  | part :: rest, sofar =>
    if part.adoptable && !sofar.settled then
      mix rest { sofar with settled := true, parent := part.met.parent }
    else do
      let content ← part.said
      mix rest { sofar with merged := sofar.merged.merge (part.met.passed content) }

end

def mixture (document : String) (content : Json) (members : List Ingredient) :
    Except Fault Json := do
  let all ← mix members (started content)
  let own ← (ownContent content).anchor document
  pure ((extended all.parent all.merged).merge own)

mutual

/-- What is said by an ingredient and by all that it is made of. -/
def Ingredient.contents : Ingredient → List Json
  | .plain met => [met.content]
  | .merged met members => contentsOf members ++ [met.content]

def contentsOf : List Ingredient → List Json
  | [] => []
  | part :: rest => part.contents ++ contentsOf rest

end

variable {met : Met} {part : Ingredient} {parts rest : List Ingredient} {sofar all : AllOf}
  {v content : Json} {document : String}

theorem mix_adopted (h : (part.adoptable && !sofar.settled) = true) :
    mix (part :: rest) sofar =
      mix rest { sofar with settled := true, parent := part.met.parent } := by
  rw [mix, if_pos h]

theorem mix_taken (h : (part.adoptable && !sofar.settled) = false) :
    mix (part :: rest) sofar = part.said >>= fun content =>
      mix rest { sofar with merged := sofar.merged.merge (part.met.passed content) } := by
  rw [mix, if_neg (by simp [h])]

theorem said_merged (met : Met) (members : List Ingredient) : (Ingredient.merged met members).said =
    mixture met.document met.content members >>= fun v => v.anchor met.document := by
  rw [Ingredient.said, mixture]
  simp only [bind_assoc, pure_bind]

theorem mixture_ok (h : mixture document content parts = .ok v) : ∃ all own,
    mix parts (started content) = .ok all ∧ (ownContent content).anchor document = .ok own ∧
      v = (extended all.parent all.merged).merge own := by
  obtain ⟨all, hall, h⟩ := ok_of_bind h
  obtain ⟨own, hown, h⟩ := ok_of_bind h
  cases h
  exact ⟨all, own, hall, hown, rfl⟩

theorem inline_own (h : v.Inline) : (ownContent v).Inline := by
  obtain ⟨members, rfl, -⟩ := h.once
  exact h.without (by decide)

theorem inline_passed (met : Met) (h : v.Inline) : (met.passed v).Inline := by
  obtain ⟨members, rfl, -⟩ := h.once
  unfold Met.passed
  split
  · exact (h.without (by decide)).without (by decide)
  · exact h

theorem inline_extended (h : v.Inline) (parent : Option Location) : (extended parent v).Inline := by
  obtain ⟨members, rfl, -⟩ := h.once
  cases parent with
  | none => exact h
  | some place => exact h.with (by decide) _

mutual

theorem Ingredient.said_inline : ∀ (part : Ingredient) {v : Json},
    (∀ content ∈ part.contents, content.Inline) → part.said = .ok v → v.Inline
  | .plain met, v, h, hv => ((h met.content (List.mem_singleton_self _)).anchored hv).1
  | .merged met members, v, h, hv => by
    rw [said_merged] at hv
    obtain ⟨whole, hwhole, hv⟩ := ok_of_bind hv
    obtain ⟨all, own, hall, hown, rfl⟩ := mixture_ok hwhole
    obtain ⟨hmembers, hlast⟩ := List.forall_mem_append.mp h
    have hmerged := mix_inline members hmembers Json.inline_nothing hall
    have hself := ((inline_own (List.forall_mem_singleton.mp hlast)).anchored hown).1
    exact (((inline_extended hmerged _).merge hself).anchored hv).1

theorem mix_inline : ∀ (parts : List Ingredient) {sofar all : AllOf},
    (∀ content ∈ contentsOf parts, content.Inline) → sofar.merged.Inline →
      mix parts sofar = .ok all → all.merged.Inline
  | [], _, _, _, hsofar, hall => Except.ok.inj hall ▸ hsofar
  | part :: rest, sofar, all, h, hsofar, hall => by
    obtain ⟨hfirst, hrest⟩ := List.forall_mem_append.mp h
    cases hadopted : part.adoptable && !sofar.settled with
    | true =>
      rw [mix_adopted hadopted] at hall
      exact @mix_inline rest { sofar with settled := true, parent := part.met.parent } all hrest
        hsofar hall
    | false =>
      rw [mix_taken hadopted] at hall
      obtain ⟨content, hcontent, hall⟩ := ok_of_bind hall
      have hsaid := inline_passed part.met (part.said_inline hfirst hcontent)
      exact mix_inline rest hrest (hsofar.merge hsaid) hall

end

theorem mixture_inline (hparts : ∀ said ∈ contentsOf parts, said.Inline) (hcontent : content.Inline)
    (h : mixture document content parts = .ok v) : v.Inline := by
  obtain ⟨all, own, hall, hown, rfl⟩ := mixture_ok h
  exact (inline_extended (mix_inline parts hparts Json.inline_nothing hall) _).merge
    ((inline_own hcontent).anchored hown).1

def metAt (st : Store) (found : Store.Child) : Met where
  route :=
    if found.byReference then
      .reference (if (st.node found.id).keywords.family.isSome then some (st.node found.id).location
        else none)
    else .inline
  document := (st.node found.id).location.document
  content := (st.node found.id).content

theorem byReference_metAt (st : Store) (found : Store.Child) :
    (metAt st found).byReference = found.byReference := by
  unfold metAt Met.byReference
  cases found.byReference <;> rfl

theorem parent_metAt (st : Store) (found : Store.Child) : (metAt st found).parent =
    if found.byReference && (st.node found.id).keywords.family.isSome then
      some (st.node found.id).location
    else none := by
  unfold metAt Met.parent
  cases found.byReference <;> rfl

theorem parent_of_isSome {st : Store} {found : Store.Child}
    (h : (metAt st found).parent.isSome = true) :
    (metAt st found).parent = some (st.node found.id).location := by
  rw [parent_metAt] at h ⊢
  split at h
  · rename_i hboth
    rw [if_pos hboth]
  · cases h

theorem adopts_metAt (st : Store) (found : Store.Child) (settled : Bool) :
    ((metAt st found).parent.isSome && !settled) = (found.byReference && !settled &&
      (st.node found.id).keywords.family.isSome) := by
  rw [parent_metAt, Bool.and_right_comm]
  cases (found.byReference && (st.node found.id).keywords.family.isSome) <;> rfl

/-- The members that a merge meets at the indices, if a superclass is settled before them or not. A
member that becomes what is extended is not looked into. -/
inductive Lists (st : Store) : NodeId → List Nat → Bool → List Ingredient → Prop
  | nothing {id : NodeId} {settled : Bool} : Lists st id [] settled []
  | parent {id : NodeId} {index : Nat} {rest : List Nat} {found : Store.Child}
      {parts : List Ingredient} (hfound : st.Found id ["allOf", toString index] found)
      (hparent : (metAt st found).parent.isSome = true)
      (hrest : Lists st id rest true parts) :
      Lists st id (index :: rest) false (.plain (metAt st found) :: parts)
  | plain {id : NodeId} {index : Nat} {rest : List Nat} {settled : Bool} {found : Store.Child}
      {parts : List Ingredient} (hfound : st.Found id ["allOf", toString index] found)
      (hparent : ((metAt st found).parent.isSome && !settled) = false)
      (hshape : (st.node found.id).shape ≠ .allOf) (hrest : Lists st id rest settled parts) :
      Lists st id (index :: rest) settled
        (.plain (metAt st found) :: parts)
  | merged {id : NodeId} {index : Nat} {rest : List Nat} {settled : Bool} {found : Store.Child}
      {inner parts : List Ingredient} (hfound : st.Found id ["allOf", toString index] found)
      (hparent : ((metAt st found).parent.isSome && !settled) = false)
      (hshape : (st.node found.id).shape = .allOf)
      (hinner : Lists st found.id (memberIndices (st.node found.id))
        (extendsItself (st.node found.id)) inner)
      (hrest : Lists st id rest settled parts) :
      Lists st id (index :: rest) settled
        (.merged (metAt st found) inner :: parts)

def Comprises (st : Store) (id : NodeId) (parts : List Ingredient) : Prop :=
  Lists st id (memberIndices (st.node id)) (extendsItself (st.node id)) parts

variable {files : FileSystem} {lib : Library} {st : Store} {id made : NodeId} {indices : List Nat}
  {settled : Bool}

theorem Lists.unique {others : List Ingredient} (h : Lists st id indices settled parts)
    (k : Lists st id indices settled others) : parts = others := by
  induction h generalizing others with
  | nothing =>
    cases k
    rfl
  | parent hfound hparent _ ih =>
    cases k with
    | parent kfound _ krest => rw [found_unique hfound kfound, ih krest]
    | plain kfound kparent => simp_all [found_unique hfound kfound]
    | merged kfound kparent => simp_all [found_unique hfound kfound]
  | plain hfound hparent hshape _ ih =>
    cases k with
    | parent kfound kparent => simp_all [found_unique hfound kfound]
    | plain kfound _ _ krest => rw [found_unique hfound kfound, ih krest]
    | merged kfound _ kshape => exact absurd (found_unique hfound kfound ▸ kshape) hshape
  | merged hfound hparent hshape _ _ ihinner ih =>
    cases k with
    | parent kfound kparent => simp_all [found_unique hfound kfound]
    | plain kfound _ kshape => exact absurd (found_unique hfound kfound ▸ hshape) kshape
    | merged kfound _ _ kinner krest =>
      obtain rfl := found_unique hfound kfound
      rw [ihinner kinner, ih krest]

theorem inline_of_read {node : SchemaNode} (hread : node.Read) (h : node.content.IsMap) :
    node.content.Inline := by
  obtain ⟨members, hobject, hdistinct⟩ := h
  have hkeywords := hread.keywords
  refine ⟨⟨members, hobject, hdistinct⟩, ?_⟩
  rw [hobject] at hkeywords ⊢
  exact (Keywords.plain_iff hdistinct (ofMembers_of_keywordsOf hkeywords)).mp hread.plain

theorem Lists.inline (ht : st.Truthful files lib) (h : Lists st id indices settled parts)
    (hmaps : ∀ content ∈ contentsOf parts, content.IsMap) :
    ∀ content ∈ contentsOf parts, content.Inline := by
  induction h with
  | nothing => exact fun _ hcontent => absurd hcontent List.not_mem_nil
  | parent hfound _ _ ih =>
    obtain ⟨hfirst, hrest⟩ := List.forall_mem_append.mp hmaps
    refine List.forall_mem_append.mpr ⟨?_, ih hrest⟩
    exact List.forall_mem_singleton.mpr
      (inline_of_read (ht.read _ (hfound.has ht.toSound)) (List.forall_mem_singleton.mp hfirst))
  | plain hfound _ _ _ ih =>
    obtain ⟨hfirst, hrest⟩ := List.forall_mem_append.mp hmaps
    refine List.forall_mem_append.mpr ⟨?_, ih hrest⟩
    exact List.forall_mem_singleton.mpr
      (inline_of_read (ht.read _ (hfound.has ht.toSound)) (List.forall_mem_singleton.mp hfirst))
  | merged hfound _ _ _ _ ihinner ih =>
    obtain ⟨hfirst, hrest⟩ := List.forall_mem_append.mp hmaps
    obtain ⟨hinner, hown⟩ := List.forall_mem_append.mp hfirst
    refine List.forall_mem_append.mpr ⟨List.forall_mem_append.mpr ⟨ihinner hinner, ?_⟩, ih hrest⟩
    exact List.forall_mem_singleton.mpr
      (inline_of_read (ht.read _ (hfound.has ht.toSound)) (List.forall_mem_singleton.mp hown))

def Legible (v : Json) : Prop :=
  ∃ keywords shape, (∀ place, Store.keywordsOf place v = .ok keywords) ∧
    keywords.reference = none ∧ Shape.classify keywords = .ok shape

/-- Whatever is merged on the way can be read. -/
inductive LegibleAll : List Ingredient → Prop
  | nothing : LegibleAll []
  | plain {met : Met} {rest : List Ingredient} (hrest : LegibleAll rest) :
      LegibleAll (.plain met :: rest)
  | merged {met : Met} {members rest : List Ingredient} {v : Json}
      (hmixture : mixture met.document met.content members = .ok v) (hlegible : Legible v)
      (hmembers : LegibleAll members) (hrest : LegibleAll rest) :
      LegibleAll (.merged met members :: rest)

theorem legible_of_read {node : SchemaNode} (h : node.Read) : Legible node.content :=
  ⟨_, _, fun place => Library.keywordsOf_anywhere h.keywords place, h.plain, h.shape⟩

/-- The second schema has what comes out of the members and of what the first one says itself. -/
structure MixedTo (st : Store) (id made : NodeId) (parts : List Ingredient) : Prop where
  document : (st.node made).location.document = (st.node id).location.document
  mixture : mixture (st.node id).location.document (st.node id).content parts =
    .ok (st.node made).content
  legible : Legible (st.node made).content
  members : LegibleAll parts

theorem takesAll_mix {merges : NodeId → NodeId → Prop}
    (hmerges : ∀ a b, (st.node a).shape = .allOf → merges a b → ∃ inner, Comprises st a inner ∧
      ((∀ said ∈ contentsOf inner ++ [(st.node a).content], said.IsMap) → MixedTo st a b inner)) :
    ∀ (indices : List Nat) (sofar all : AllOf), TakesAll st merges id indices sofar all →
      ∃ parts, Lists st id indices sofar.settled parts ∧
        ((∀ said ∈ contentsOf parts, said.IsMap) →
          mix parts sofar = .ok all ∧ LegibleAll parts) := by
  intro indices
  induction indices with
  | nil =>
    rintro sofar all rfl
    exact ⟨[], .nothing, fun _ => ⟨rfl, .nothing⟩⟩
  | cons index rest ih =>
    rintro sofar all ⟨next, hnext, hrest⟩
    obtain ⟨parts, hparts, hall⟩ := ih next all hrest
    cases hnext with
    | @parent found hfound hparent =>
      have hadopted := (adopts_metAt st found sofar.settled).trans hparent
      obtain ⟨hsome, hsettled⟩ := Bool.and_eq_true_iff.mp hadopted
      rw [Bool.not_eq_true'] at hsettled
      refine ⟨.plain (metAt st found) :: parts, ?_, fun hmaps => ?_⟩
      · rw [hsettled]
        exact .parent hfound hsome hparts
      · obtain ⟨hmix, hlegible⟩ := hall (List.forall_mem_append.mp hmaps).2
        rw [@mix_adopted (.plain (metAt st found)) parts sofar hadopted, Ingredient.met,
          parent_of_isSome hsome]
        exact ⟨hmix, .plain hlegible⟩
    | @part found member content hfound hparent hmember hcontent =>
      have hnot := (adopts_metAt st found sofar.settled).trans hparent
      have hpassed : (metAt st found).passed content =
          if found.byReference then withoutFamily content else content := by
        rw [Met.passed, byReference_metAt]
      rw [← hpassed] at hall
      by_cases hshape : (st.node found.id).shape = .allOf
      · rw [if_pos hshape] at hmember
        obtain ⟨inner, hinner, hmixed⟩ := hmerges _ _ hshape hmember
        refine ⟨.merged (metAt st found) inner :: parts, .merged hfound hnot hshape hinner hparts,
          fun hmaps => ?_⟩
        obtain ⟨hfirst, hothers⟩ := List.forall_mem_append.mp hmaps
        have hmixed := hmixed hfirst
        have hwhole : mixture (metAt st found).document (metAt st found).content inner =
            .ok (st.node member).content := hmixed.mixture
        have hsaid : (Ingredient.merged (metAt st found) inner).said = .ok content := by
          rw [said_merged, hwhole, ← hcontent, hmixed.document]
          rfl
        rw [@mix_taken (.merged (metAt st found) inner) parts sofar hnot, hsaid]
        exact ⟨(hall hothers).1, .merged hwhole hmixed.legible hmixed.members (hall hothers).2⟩
      · rw [if_neg hshape] at hmember
        subst hmember
        refine ⟨.plain (metAt st found) :: parts, .plain hfound hnot hshape hparts,
          fun hmaps => ?_⟩
        obtain ⟨hmix, hlegible⟩ := hall (List.forall_mem_append.mp hmaps).2
        have hsaid : (Ingredient.plain (metAt st found)).said = .ok content := hcontent
        rw [@mix_taken (.plain (metAt st found)) parts sofar hnot, hsaid]
        exact ⟨hmix, .plain hlegible⟩

theorem merges_mixture (hkeys : lib.KeysOnce) (ht : st.Truthful files lib)
    {barred : List NodeId} : ∀ (k : Nat) (id made : NodeId), (st.node id).shape = .allOf →
      Merges st barred k id made → ∃ parts, Comprises st id parts ∧
        ((∀ said ∈ contentsOf parts ++ [(st.node id).content], said.IsMap) →
          MixedTo st id made parts) := by
  intro k
  induction k with
  | zero => exact fun _ _ _ h => h.elim
  | succ k ih =>
    intro id made hshape hmerges
    have hread := ht.read made (hmerges.has_made ht.toSound)
    obtain ⟨hid, -, hplace, ⟨all, hall⟩, own, hown⟩ := hmerges
    obtain ⟨parts, hparts, hmix⟩ := takesAll_mix ih _ _ _ hall
    refine ⟨parts, hparts, fun hmaps => ?_⟩
    obtain ⟨hmembers, hself⟩ := List.forall_mem_append.mp hmaps
    obtain ⟨hstart, hlegible⟩ := hmix hmembers
    have hwhole : mixture (st.node id).location.document (st.node id).content parts =
        .ok ((extended all.parent all.merged).merge own) := by
      have hstart : mix parts (started (st.node id).content) = .ok all := hstart
      unfold mixture
      rw [hstart, hown]
      rfl
    have hinline := mixture_inline (hparts.inline ht hmembers)
      (inline_of_read (ht.read id hid) (List.forall_mem_singleton.mp hself)) hwhole
    obtain ⟨hlocation, hcontent⟩ := merged_content hkeys ht hid hshape hall hown hplace hinline
    exact ⟨by rw [hlocation, Location.below], hcontent ▸ hwhole, legible_of_read hread, hlegible⟩

end Drafting

end SchemaBeans
