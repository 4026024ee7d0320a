import SchemaBeans.Proofs.Generation.Records
import SchemaBeans.Proofs.Json.Merging
import SchemaBeans.Proofs.Keywords.Constraints

/-! # What a merged schema is made of

The members of an `allOf` say what they say in order, each nested `allOf` in its place, and the
schema itself has the last word; a member that becomes what the schema extends says nothing. A
merge puts all of this together, whatever a member has gone through on its way. -/
namespace SchemaBeans

open Json (Assembled Distinct Stated)

namespace Keywords

variable {members : Json.Members} {k : Keywords}

theorem strings_of_mapM {items : List Json} {names : List String}
    (h : items.mapM Decoder.string = .ok names) : items.filterMap Json.string? = names := by
  induction items generalizing names with
  | nil =>
    cases h
    rfl
  | cons item rest ih =>
    rw [List.mapM_cons] at h
    obtain ⟨name, hname, h⟩ := ok_of_bind h
    obtain ⟨others, hothers, h⟩ := ok_of_bind h
    cases h
    cases item with
    | string s =>
      cases hname
      rw [List.filterMap_cons, ih hothers]
      rfl
    | _ => cases hname

theorem requiredKeyword_array {items : List Json} {required : RequiredKeyword}
    (h : requiredKeyword (.array items) = .ok required) :
    required = .keys (items.filterMap Json.string?) := by
  unfold requiredKeyword Decoder.firstOf at h
  cases hnames : items.mapM Decoder.string with
  | ok names =>
    simp [Decoder.list, hnames, Functor.map, Except.map, Except.toOption] at h
    rw [strings_of_mapM hnames, ← h]
  | error fault =>
    simp [Decoder.list, hnames, Functor.map, Except.map, Except.toOption, Decoder.boolean] at h

end Keywords

namespace Json

variable {v : Json} {place : Location} {k : Keywords}

/-- The keywords of a schema have the property keys that it lists. -/
theorem Tabular.keywords (h : v.Tabular) (hk : Store.keywordsOf place v = .ok k) :
    (k.properties.getD []).map (·.1) = v.propertyKeys := by
  obtain ⟨members, rfl, hdistinct⟩ := h.once
  have hread := ofMembers_of_keywordsOf hk
  obtain ⟨-, -, hproperties, -⟩ := Keywords.reads_keywords
  rw [propertyKeys_object]
  rcases hproperties.cases hdistinct hread with ⟨hmissing, hnone⟩ | ⟨x, hx, hdecoded⟩
  · rw [hmissing, hnone]
    rfl
  · obtain ⟨listed, rfl, -⟩ := h.properties x hx
    rw [hx, ← Except.ok.inj hdecoded]
    rfl

theorem Listing.keywords (h : v.Listing) (hk : Store.keywordsOf place v = .ok k) :
    k.requiredKeys = v.requiredKeys := by
  obtain ⟨members, rfl, hdistinct⟩ := h.once
  have hread := ofMembers_of_keywordsOf hk
  obtain ⟨-, -, -, hrequired, -⟩ := Keywords.reads_keywords
  rw [requiredKeys_object]
  unfold Keywords.requiredKeys
  rcases hrequired.cases hdistinct hread with ⟨hmissing, hnone⟩ | ⟨x, hx, hdecoded⟩
  · rw [hmissing, hnone]
    rfl
  · obtain ⟨items, rfl⟩ := h.required x hx
    cases hnames : Keywords.requiredKeyword (.array items) with
    | error fault => simp [Decoder.optional, hnames, Except.map] at hdecoded
    | ok required =>
      simp only [Decoder.optional, hnames, Except.map, Except.ok.injEq] at hdecoded
      rw [hx, ← hdecoded, Keywords.requiredKeyword_array hnames]
      rfl

open Drafting

variable {Part : Json → Prop} {parts : List Json}

theorem Assembled.ownContent (h : Assembled Part v parts) :
    Assembled Part (ownContent v) parts := by
  cases v with
  | object members => exact h.without (by decide)
  | _ => exact h

theorem Assembled.withoutFamily (h : Assembled Part v parts) :
    Assembled Part (withoutFamily v) parts := by
  cases v with
  | object members => exact .without (h.without (by decide)) (by decide)
  | _ => exact h

theorem Assembled.extended (h : Assembled Part v parts) (parent : Option Location) :
    Assembled Part (extended parent v) parts := by
  cases v with
  | object members =>
    cases parent with
    | none => exact h
    | some place => exact h.extending _
  | _ => exact h

end Json

namespace Drafting

variable {files : FileSystem} {lib : Library} {st : Store} {id made : NodeId} {parts : List Json}

def extendsItself (schema : SchemaNode) : Bool :=
  ((ownContent schema.content).member? "extends").isSome

def memberIndices (schema : SchemaNode) : List Nat :=
  List.range (schema.keywords.allOf.getD []).length

/-- What the members at the indices say one after the other, if a superclass is settled before them
or not. A member with an `allOf` says what its members say and then what it says itself. -/
inductive Says (st : Store) : NodeId → List Nat → Bool → List Json → Prop
  | nothing {id : NodeId} {settled : Bool} : Says st id [] settled []
  | parent {id : NodeId} {index : Nat} {rest : List Nat} {found : Store.Child} {parts : List Json}
      (hfound : st.Found id ["allOf", toString index] found)
      (hparent : (found.byReference && (st.node found.id).keywords.family.isSome) = true)
      (hrest : Says st id rest true parts) : Says st id (index :: rest) false parts
  | part {id : NodeId} {index : Nat} {rest : List Nat} {settled : Bool} {found : Store.Child}
      {parts : List Json} (hfound : st.Found id ["allOf", toString index] found)
      (hparent : (found.byReference && !settled &&
        (st.node found.id).keywords.family.isSome) = false)
      (hshape : (st.node found.id).shape ≠ .allOf) (hrest : Says st id rest settled parts) :
      Says st id (index :: rest) settled ((st.node found.id).content :: parts)
  | nested {id : NodeId} {index : Nat} {rest : List Nat} {settled : Bool} {found : Store.Child}
      {inner parts : List Json} (hfound : st.Found id ["allOf", toString index] found)
      (hparent : (found.byReference && !settled &&
        (st.node found.id).keywords.family.isSome) = false)
      (hshape : (st.node found.id).shape = .allOf)
      (hinner : Says st found.id (memberIndices (st.node found.id))
        (extendsItself (st.node found.id)) inner)
      (hrest : Says st id rest settled parts) :
      Says st id (index :: rest) settled (inner ++ [(st.node found.id).content] ++ parts)

/-- What the members of a schema say, and what it says itself as the last part. -/
def Contributes (st : Store) (id : NodeId) (parts : List Json) : Prop :=
  ∃ members, Says st id (memberIndices (st.node id)) (extendsItself (st.node id)) members ∧
    parts = members ++ [(st.node id).content]

theorem found_unique {segments : List String} {found other : Store.Child}
    (h : st.Found id segments found) (k : st.Found id segments other) : found = other := by
  have hid := Option.some.inj (h.known.symm.trans k.known)
  have href := h.byReference
  rw [hid, ← k.byReference] at href
  cases found
  cases other
  simp_all

theorem Says.unique {indices : List Nat} {settled : Bool} {others : List Json}
    (h : Says st id indices settled parts) (k : Says st id indices settled others) :
    parts = others := by
  induction h generalizing others with
  | nothing =>
    cases k
    rfl
  | parent hfound hparent _ ih =>
    cases k with
    | parent _ _ krest => exact ih krest
    | part kfound kparent => simp_all [found_unique hfound kfound]
    | nested kfound kparent => simp_all [found_unique hfound kfound]
  | part hfound hparent hshape _ ih =>
    cases k with
    | parent kfound kparent => simp_all [found_unique hfound kfound]
    | part kfound _ _ krest => rw [found_unique hfound kfound, ih krest]
    | nested kfound _ kshape => exact absurd (found_unique hfound kfound ▸ kshape) hshape
  | nested hfound hparent hshape _ _ ihinner ih =>
    cases k with
    | parent kfound kparent => simp_all [found_unique hfound kfound]
    | part kfound _ kshape => exact absurd (found_unique hfound kfound ▸ hshape) kshape
    | nested kfound _ _ kinner krest =>
      obtain rfl := found_unique hfound kfound
      rw [ihinner kinner, ih krest]

theorem Contributes.unique {others : List Json} (h : Contributes st id parts)
    (k : Contributes st id others) : parts = others := by
  obtain ⟨members, hmembers, rfl⟩ := h
  obtain ⟨_, kmembers, rfl⟩ := k
  rw [hmembers.unique kmembers]

theorem content_of_sole (ht : st.Truthful files lib) {place : Location} {content : Json}
    (hid : st.id? place = some id) (hsole : ∀ other, Library.Readable place other →
      lib.Finds (.value place other) → content = other) :
    ∃ keywords, Store.keywordsOf place content = .ok keywords ∧ (keywords.reference = none →
      (st.node id).location = place ∧ (st.node id).content = content) := by
  have hfinds := ht.finds _ _ hid
  generalize (st.node id).location = location at hfinds
  generalize (st.node id).content = found at hfinds
  cases hfinds with
  | plain hvalue hread =>
    obtain rfl := hsole _ ⟨_, hread⟩ hvalue
    exact ⟨_, hread, fun _ => ⟨rfl, rfl⟩⟩
  | refers hvalue hread href =>
    obtain rfl := hsole _ ⟨_, hread⟩ hvalue
    exact ⟨_, hread, fun hnone => by simp [href] at hnone⟩

theorem inline_of_sole (ht : st.Truthful files lib) {place : Location} {content : Json}
    (hid : st.id? place = some id) (hinline : content.Inline)
    (hsole : ∀ other, Library.Readable place other → lib.Finds (.value place other) →
      content = other) : (st.node id).location = place ∧ (st.node id).content = content := by
  obtain ⟨keywords, hread, hplain⟩ := content_of_sole ht hid hsole
  refine hplain ?_
  obtain ⟨members, rfl, hdistinct⟩ := hinline.once
  exact (Keywords.plain_iff hdistinct (ofMembers_of_keywordsOf hread)).mpr hinline.plain

theorem merged_content (hkeys : lib.KeysOnce) (ht : st.Truthful files lib) (hid : st.Has id)
    (hshape : (st.node id).shape = .allOf) {barred : List NodeId} {f : Nat} {all : AllOf}
    {own : Json} (hall : TakesAll st (Merges st barred f) id (memberIndices (st.node id))
      (unmerged (st.node id)) all)
    (hown : (ownContent (st.node id).content).anchor (st.node id).location.document = .ok own)
    (hplace : st.id? ((st.node id).location.below ["allOf"]) = some made)
    (hinline : ((extended all.parent all.merged).merge own).Inline) :
    (st.node made).location = (st.node id).location.below ["allOf"] ∧
      (st.node made).content = (extended all.parent all.merged).merge own := by
  have hread := (ht.read id hid).keywords
  have hallOf := (classify_allOf (ht.read id hid).shape).mp hshape
  exact inline_of_sole ht hplace hinline fun other =>
    Library.merge_sole hkeys (ht.schema hid) hread hallOf hown ((ht.schema hid).sole hkeys)
      ((finds_members ht hid hall).sole hkeys)

theorem merged_bare (hkeys : lib.KeysOnce) (ht : st.Truthful files lib) (hid : st.Has id)
    (hshape : (st.node id).shape = .allOf) :
    lib.Bare ((st.node id).location.below ["allOf"]) :=
  Library.bare_merge hkeys ((ht.schema hid).placed hkeys) (ht.read id hid).keywords
    ((classify_allOf (ht.read id hid).shape).mp hshape)

theorem child_content (hkeys : lib.KeysOnce) (ht : st.Truthful files lib) (hid : st.Has id)
    (hbare : lib.Bare (st.node id).location) {segments : List String} {found : Store.Child}
    (hsegments : Subschema segments) (hfound : st.Found id segments found) {part : Json}
    (hpart : (st.node id).content.descend? segments = some part) (hinline : part.Inline) :
    (st.node found.id).content = part :=
  (inline_of_sole ht hfound.known hinline fun _ _ => Library.child_sole hkeys hbare (ht.schema hid)
    hsegments hpart ((ht.schema hid).sole hkeys)).2

section Assembly

variable {Part : Json → Prop}
  (hpart : ∀ v, Part v → ∃ members, v = .object members ∧ Distinct members)

include hpart

theorem read_assembled {node : SchemaNode} (hread : node.Read) (h : Part node.content) :
    Assembled (Stated Part) node.content [node.content] := by
  refine .whole ⟨h, hpart _ h, ?_⟩
  obtain ⟨members, hobject, hdistinct⟩ := hpart _ h
  have hkeywords := hread.keywords
  rw [hobject] at hkeywords ⊢
  exact (Keywords.plain_iff hdistinct (ofMembers_of_keywordsOf hkeywords)).mp hread.plain

/-- The members that are taken in are put together from what they say. -/
theorem takesAll_assembled (ht : st.Truthful files lib) {merges : NodeId → NodeId → Prop}
    (hmerges : ∀ a b, (st.node a).shape = .allOf → merges a b →
      ∃ parts, Contributes st a parts ∧
        ((∀ part ∈ parts, Part part) → Assembled (Stated Part) (st.node b).content parts)) :
    ∀ (indices : List Nat) (sofar all : AllOf), TakesAll st merges id indices sofar all →
      ∃ parts, Says st id indices sofar.settled parts ∧ ((∀ part ∈ parts, Part part) →
        ∀ said, Assembled (Stated Part) sofar.merged said →
          Assembled (Stated Part) all.merged (said ++ parts)) := by
  intro indices
  induction indices with
  | nil =>
    rintro sofar all rfl
    exact ⟨[], .nothing, fun _ said hsaid => by rwa [List.append_nil]⟩
  | cons index rest ih =>
    rintro sofar all ⟨next, hnext, hrest⟩
    obtain ⟨parts, hparts, hall⟩ := ih next all hrest
    cases hnext with
    | @parent found hfound hparent =>
      simp only [Bool.and_eq_true, Bool.not_eq_true'] at hparent
      refine ⟨parts, ?_, hall⟩
      rw [hparent.1.2]
      exact .parent hfound (by simp [hparent]) hparts
    | @part found member content hfound hparent hmember hcontent =>
      -- Whatever the member says is anchored, and loses its family if it was reached by reference.
      have hpassed : ∀ said, Assembled (Stated Part) (st.node member).content said →
          Assembled (Stated Part) (if found.byReference then withoutFamily content else content)
            said := by
        intro said hsaid
        have hanchored := hsaid.anchored hcontent
        split
        · exact hanchored.withoutFamily
        · exact hanchored
      by_cases hshape : (st.node found.id).shape = .allOf
      · rw [if_pos hshape] at hmember
        obtain ⟨_, ⟨inner, hinner, rfl⟩, hmerged⟩ := hmerges _ _ hshape hmember
        refine ⟨_, .nested hfound hparent hshape hinner hparts, fun hlisting said hsaid => ?_⟩
        obtain ⟨hfirst, hothers⟩ := List.forall_mem_append.mp hlisting
        have hdone := hall hothers _ (hsaid.merge (hpassed _ (hmerged hfirst)))
        rwa [List.append_assoc] at hdone
      · rw [if_neg hshape] at hmember
        subst hmember
        refine ⟨_, .part hfound hparent hshape hparts, fun hlisting said hsaid => ?_⟩
        obtain ⟨hfirst, hothers⟩ := List.forall_mem_cons.mp hlisting
        have hread := ht.read _ (hfound.has ht.toSound)
        have hdone := hall hothers _ (hsaid.merge (hpassed _ (read_assembled hpart hread hfirst)))
        rwa [List.append_assoc] at hdone

/-- A merged schema is put together from what is said, if all of it is of one kind, and no document
has it. -/
theorem merges_assembled (hkeys : lib.KeysOnce) (ht : st.Truthful files lib)
    {barred : List NodeId} : ∀ (k : Nat) (id made : NodeId), (st.node id).shape = .allOf →
      Merges st barred k id made → ∃ parts, Contributes st id parts ∧
        ((∀ part ∈ parts, Part part) →
          Assembled (Stated Part) (st.node made).content parts ∧
            lib.Bare (st.node made).location) := by
  intro k
  induction k with
  | zero => exact fun _ _ _ h => h.elim
  | succ k ih =>
    rintro id made hshape ⟨hid, -, hplace, ⟨all, hall⟩, own, hown⟩
    have hinner : ∀ a b, (st.node a).shape = .allOf → Merges st barred k a b →
        ∃ parts, Contributes st a parts ∧
          ((∀ part ∈ parts, Part part) → Assembled (Stated Part) (st.node b).content parts) := by
      intro a b ha hab
      obtain ⟨parts, hparts, hassembled⟩ := ih a b ha hab
      exact ⟨parts, hparts, fun hlisting => (hassembled hlisting).1⟩
    obtain ⟨members, hmembers, hassembled⟩ := takesAll_assembled hpart ht hinner _ _ _ hall
    refine ⟨_, ⟨members, hmembers, rfl⟩, fun hlisting => ?_⟩
    obtain ⟨hfirst, hlast⟩ := List.forall_mem_append.mp hlisting
    have hmerged := hassembled hfirst [] .nothing
    have hself := read_assembled hpart (ht.read id hid) (hlast _ (List.mem_singleton_self _))
    have hwhole := (hmerged.extended all.parent).merge (hself.ownContent.anchored hown)
    rw [List.nil_append] at hwhole
    obtain ⟨hlocation, hcontent⟩ :=
      merged_content hkeys ht hid hshape hall hown hplace (hwhole.inline fun _ h => h.2)
    exact ⟨hcontent ▸ hwhole, hlocation ▸ merged_bare hkeys ht hid hshape⟩

end Assembly

end Drafting

end SchemaBeans
