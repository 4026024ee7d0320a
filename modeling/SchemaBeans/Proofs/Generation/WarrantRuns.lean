import SchemaBeans.Proofs.Generation.Warrants
import SchemaBeans.Proofs.Generation.Members

/-! # Calling for what is handed on

Each rule, called for a schema that is asked for, calls others for what the schema hands on: a class
for what it extends, its properties, its extension map and the children of its family, an array for
its items, a union for its branches, and an `allOf` for its merge. The induction is on the fuel. -/
namespace SchemaBeans.Drafting

variable {ctx : Context} {lib : Library} {starts : Location → Prop} {rule : Rule} {d e : Draft}
  {id : NodeId} {type : TypeId} {request : Request} {kind : TypeKind}

section Filling

variable (hrule : Heeds ctx lib starts rule)

include hrule

theorem attachSuperclass_tells (h : Owned ctx lib starts d request id type .bean)
    (hsuper : (d.store.node id).keywords.superclass.isSome = true) :
    Follows (Tells ctx lib starts) (attachSuperclass ctx rule type id request.name) d
      fun _ _ => True := by
  unfold attachSuperclass
  refine (child_tells h.toWarranted h.has .superclass).bind fun parent e hde hfound => ?_
  have he := h.after hde
  rw [← hde.grows.node h.has] at hsuper
  refine Follows.seq (he.generate hrule he.library hfound (fun _ ho => by cases ho)
    (.superclass he.kind hsuper)) fun supertype t _ _ => ?_
  refine Follows.after (a := t.store.node id) rfl ?_
  have hset : Follows (Tells ctx lib starts)
      (update type fun d => { d with supertype := some supertype }) t fun _ _ => True :=
    update_tells (fun _ => rfl) fun _ => rfl
  cases supertype with
  | generated parentType =>
    exact Follows.after (a := t) rfl (Follows.check (Follows.check hset))
  | library name => exact hset
  | _ => exact Follows.throw_bind

theorem addProperty_tells (h : Owned ctx lib starts d request id type .bean)
    (required : List String) {key : String}
    (hkey : key ∈ memberKeys (d.store.node id).keywords) :
    Follows (Tells ctx lib starts) (addProperty ctx rule type id required key) d
      fun _ _ => True := by
  unfold addProperty
  refine (child_tells h.toWarranted h.has (.property key)).bind fun found e hde hfound => ?_
  have he := h.after hde
  rw [← hde.grows.node h.has] at hkey
  have hhands : lib.Hands ctx.settings (e.store.node id).alone (request.asking e.graph)
      ((e.store.node id).location.below ["properties", key])
      (Request.asking ⟨key, .inside type⟩ e.graph) := by
    rw [he.inside]
    exact .property he.kind hkey
  refine Follows.after (a := e.store.node found.id) rfl ?_
  refine Follows.seq (he.generate hrule he.library hfound
    (fun owner ho => by cases ho; exact he.declared) hhands) fun fieldType t _ _ => ?_
  refine Follows.after (a := t.graph.get type) rfl ?_
  simp only
  split
  · exact Follows.throw
  · exact update_tells (fun _ => rfl) fun _ => rfl

theorem attachAdditionalProperties_tells (h : Owned ctx lib starts d request id type .bean) :
    Follows (Tells ctx lib starts) (attachAdditionalProperties ctx rule type id request.name
      (d.store.node id).keywords.additionalProperties) d fun _ _ => True := by
  have hset : ∀ (e : Draft) (value : TypeRef), Follows (Tells ctx lib starts)
      (update type fun t => { t with additionalProperties := some value }) e fun _ _ => True :=
    fun _ _ => update_tells (fun _ => rfl) fun _ => rfl
  unfold attachAdditionalProperties
  by_cases henabled : ctx.settings.additionalPropertiesEnabled = false
  · simp only [henabled, if_true]
    exact Follows.pure trivial
  rw [if_neg henabled]
  rw [Bool.not_eq_false] at henabled
  dsimp only
  split
  · exact Follows.pure trivial
  · exact hset d .any
  · exact hset d .any
  · exact hset d .any
  · rename_i hfalse htrue hempty hallowed
    have htyped := typedExtension_of hallowed hfalse htrue hempty
    refine (child_tells h.toWarranted h.has .additional).bind fun found e hde hfound => ?_
    have he := h.after hde
    rw [← hde.grows.node h.has] at htyped
    have hhands : lib.Hands ctx.settings (e.store.node id).alone (request.asking e.graph)
        ((e.store.node id).location.below ["additionalProperties"])
        (Request.asking ⟨request.name ++ "Property", .inside type⟩ e.graph) := by
      rw [he.inside]
      exact .additional he.kind henabled htyped
    exact Follows.seq (he.generate hrule he.library hfound
      (fun owner ho => by cases ho; exact he.declared) hhands) fun value t _ _ => hset t value

/-- A child of a family that the schema declares. -/
theorem familyChild_tells (h : Owned ctx lib starts d request id type kind) {metadata : Json}
    {discriminator : Discriminator} {declaration : ChildDeclaration} (hkind : kind ≠ .enum)
    (hfamily : (d.store.node id).keywords.family = some metadata)
    (hread : Discriminator.ofJson ctx.settings.defaultDiscriminatorId metadata = .ok discriminator)
    (hchild : declaration ∈ discriminator.children) :
    Follows (Tells ctx lib starts) (familyChild ctx rule id declaration) d fun _ _ => True := by
  rcases declaration with ⟨target, tag⟩
  cases target with
  | className name => exact Follows.pure trivial
  | reference text =>
    refine (resolveReference_tells h.toWarranted id text).bind fun target e hde hknown => ?_
    obtain ⟨place, hplace, hid⟩ := hknown
    have he := h.after hde
    rw [← hde.grows.node h.has] at hfamily hplace
    have hasked :=
      he.asked.handed he.library (.family he.kind hkind ⟨metadata, discriminator, text, tag,
      hfamily, hread, hchild, hplace⟩) (he.store.stands hid)
    rw [Asking.reaching_own] at hasked
    refine Follows.after (a := e.store.node target) rfl ?_
    exact (hrule e ⟨(e.store.node target).location.name, .topLevel⟩ target
      ⟨he.toWarranted, he.store.bound hid, (fun _ ho => by cases ho), hasked⟩).bind
        fun _ _ _ _ => Follows.pure trivial

theorem declareFamily_tells (h : Owned ctx lib starts d request id type kind) {metadata : Json}
    (hkind : kind ≠ .enum) (hfamily : (d.store.node id).keywords.family = some metadata) :
    Follows (Tells ctx lib starts) (declareFamily ctx rule type id metadata) d
      fun _ _ => True := by
  unfold declareFamily
  refine Follows.after (a := d.store.node id) rfl ?_
  simp only
  split
  · exact Follows.throw
  · rename_i discriminator hread
    have hchildren := Follows.mapM (R := Tells ctx lib starts) (f := familyChild ctx rule id)
      (I := fun e => Owned ctx lib starts e request id type kind ∧
        (e.store.node id).keywords.family = some metadata)
      (P := fun _ _ _ => True) (fun _ _ _ _ _ _ h => h) discriminator.children
      (fun declaration hchild e he => by
        refine (familyChild_tells hrule he.1 hkind he.2 hread hchild).imp fun _ t het _ => ?_
        rw [het.grows.node he.1.has]
        exact ⟨⟨he.1.after het, he.2⟩, trivial⟩)
    exact (hchildren d ⟨h, hfamily⟩).bind fun children e _ _ =>
      Follows.change (tells_families _) trivial

theorem populate_tells (h : Owned ctx lib starts d request id type .bean) :
    Follows (Tells ctx lib starts) (populate ctx rule type id request.name) d
      fun _ _ => True := by
  unfold populate
  refine Follows.after (a := d.store.node id) rfl ?_
  have hmembers : ∀ e, Owned ctx lib starts e request id type .bean →
      Follows (Tells ctx lib starts)
        (populateMembers ctx rule type id request.name (e.store.node id).keywords) e
        fun _ _ => True := by
    intro e he
    have hproperties := Follows.forM (R := Tells ctx lib starts)
      (f := fun (member : String × Json) =>
        addProperty ctx rule type id (e.store.node id).keywords.requiredKeys member.1)
      (I := fun rest t => Owned ctx lib starts t request id type .bean ∧
        ∀ member ∈ rest, member.1 ∈ memberKeys (t.store.node id).keywords)
      (fun member rest t ht => by
        refine (addProperty_tells hrule ht.1 _ (ht.2 member (by simp))).imp fun _ u htu _ => ?_
        rw [htu.grows.node ht.1.has]
        exact ⟨ht.1.after htu, fun other hother => ht.2 other (by simp [hother])⟩)
    unfold populateMembers
    refine (hproperties _ e ⟨he, fun member hmember => List.mem_map_of_mem hmember⟩).bind
      fun _ t het ht => ?_
    rw [← het.grows.node he.has]
    refine (attachAdditionalProperties_tells hrule ht.1).bind fun _ u htu _ => ?_
    rw [← htu.grows.node ht.1.has]
    split
    · rename_i metadata hfamily
      exact declareFamily_tells hrule (ht.1.after htu) (by decide) hfamily
    · exact Follows.pure trivial
  by_cases hsuper : (d.store.node id).keywords.superclass.isSome = true
  · simp only [if_pos hsuper]
    refine (attachSuperclass_tells hrule h hsuper).bind fun _ e hde _ => ?_
    rw [← hde.grows.node h.has]
    exact hmembers e (h.after hde)
  · simp only [if_neg hsuper]
    exact hmembers d h

end Filling

theorem enumRule_tells (h : Called ctx lib starts d request id)
    (hlib : library? (d.store.node id) = none) (hshape : (d.store.node id).shape = .enumeration) :
    Follows (Tells ctx lib starts) (enumRule ctx request id) d fun _ _ => True := by
  unfold enumRule
  refine (declare_tells h hlib (.enumeration hshape)).bind fun made e _ _ => ?_
  cases made with
  | existing other => exact Follows.pure trivial
  | created type =>
    refine Follows.after (a := e.store.node id) rfl ?_
    simp only
    split
    · exact Follows.throw
    · refine Follows.bind (P := fun _ _ => True) ?_ fun _ _ _ _ => Follows.pure trivial
      exact update_tells (fun _ => rfl) fun _ => rfl

section Rules

variable (hrule : Heeds ctx lib starts rule)

include hrule

theorem objectRule_tells (h : Called ctx lib starts d request id)
    (hlib : library? (d.store.node id) = none) (hshape : (d.store.node id).shape = .object) :
    Follows (Tells ctx lib starts) (objectRule ctx rule request id) d fun _ _ => True := by
  unfold objectRule
  refine (declare_tells h hlib (.object hshape)).bind fun made e _ howned => ?_
  cases made with
  | existing other => exact Follows.pure trivial
  | created type =>
    exact (populate_tells hrule (howned type rfl)).bind fun _ _ _ _ => Follows.pure trivial

theorem arrayRule_tells (h : Called ctx lib starts d request id)
    (hlib : library? (d.store.node id) = none) (hshape : (d.store.node id).shape = .array) :
    Follows (Tells ctx lib starts) (arrayRule ctx rule request id) d fun _ _ => True := by
  unfold arrayRule
  refine Follows.after (a := d.store.node id) rfl ?_
  simp only
  split
  · exact Follows.after (Repeats.pure d _) (Follows.pure trivial)
  · exact Follows.after (Repeats.pure d _) (Follows.pure trivial)
  · rename_i items hnot hitems
    have htyped : untypedItems (d.store.node id).keywords = false := by
      cases items with
      | array elements => exact absurd rfl (hnot elements)
      | _ => simp only [untypedItems, hitems]
    refine (child_tells h.toWarranted h.has .items).bind fun found e hde hfound => ?_
    have he := h.after hde
    rw [← hde.grows.node h.has] at hlib hshape htyped
    exact Follows.seq (he.generate hrule hlib hfound he.fits (.items hshape htyped))
      fun _ _ _ _ => Follows.pure trivial

end Rules

theorem generatesAs_of_effective (ht : d.store.Truthful ctx.files lib) {k : Nat} {shape : Shape}
    (h : Effective d k id shape) : lib.GeneratesAs (d.store.node id).alone shape := by
  cases h with
  | own h => exact .own h
  | @merged made h hmerges =>
    have hmade := ht.stands hmerges.place
    have hmerged : lib.GeneratesAs (d.store.node id).alone (d.store.node made).alone.shape :=
      .merged h hmade
    exact hmerged

/-- A branch in the documents is the one that the store has. -/
def Shown (st : Store) (id : NodeId) (branch : Store.Child) (entry : Location × SchemaNode) :
    Prop :=
  ∃ index, st.Found id [(branchList (st.node id).keywords).1, toString index] branch ∧
    entry = (Library.branchPlace (st.node id).alone index, (st.node branch.id).alone)

theorem alternatives_of_branches {files : FileSystem} {st : Store} (ht : st.Truthful files lib)
    {found : List Store.Child} (h : Branches st id found) :
    ∃ entries, lib.Alternatives (st.node id).alone entries ∧
      List.Forall₂ (Shown st id) found entries := by
  obtain ⟨all, hall, rfl⟩ := h
  obtain ⟨entries, hentries, hshown⟩ := exists_forall₂
    (T := fun index (entry : Location × SchemaNode) =>
      entry.1 = Library.branchPlace (st.node id).alone index ∧ lib.Stands entry.1 entry.2)
    (U := Shown st id) (fun index branch hfound =>
      ⟨(Library.branchPlace (st.node id).alone index, (st.node branch.id).alone),
        ⟨rfl, ht.stands hfound.known⟩, index, hfound, rfl⟩) hall
  refine ⟨_, ⟨entries, hentries, rfl⟩, ?_⟩
  refine List.rel_filter ?_ hshown
  rintro branch entry ⟨index, -, rfl⟩
  rfl

theorem declares_of_plan (ht : d.store.Truthful ctx.files lib)
    (hshape : (d.store.node id).shape = .union) {k : Nat} {found : List Store.Child}
    {shapes : List Shape} (hplan : Plan d k id found shapes)
    (hkind : marker? (d.store.node id).keywords found shapes = some kind) :
    lib.Declares (d.store.node id).alone kind := by
  obtain ⟨entries, hentries, hshown⟩ := alternatives_of_branches ht hplan.branches
  refine .union hshape hentries (forall₂_join ?_ hshown hplan.shapes) ?_
  · rintro branch entry shape ⟨index, -, rfl⟩ heffective
    exact generatesAs_of_effective ht heffective
  · rw [Library.ownKind?_eq hplan.shapes.length_eq]
    exact hkind

/-- A union that is asked for, with its branches. -/
structure Splits (ctx : Context) (lib : Library) (starts : Location → Prop) (d : Draft)
    (request : Request) (id : NodeId) (found : List Store.Child) : Prop
    extends Called ctx lib starts d request id where
  library : library? (d.store.node id) = none
  shape : (d.store.node id).shape = .union
  branches : Branches d.store id found

/-- A union whose branches are told apart by numbers. -/
structure Forks (ctx : Context) (lib : Library) (starts : Location → Prop) (d : Draft)
    (request : Request) (id : NodeId) (found : List Store.Child) : Prop
    extends Splits ctx lib starts d request id found where
  many : ¬ (found.length = 1 ∧ ((d.store.node id).keywords.hasProperties ||
    (d.store.node id).keywords.family.isSome) = false)

section Unions

variable {found : List Store.Child}

theorem Splits.after (h : Splits ctx lib starts d request id found)
    (hde : Tells ctx lib starts d e) : Splits ctx lib starts e request id found := by
  have hnode := hde.grows.node h.has
  refine ⟨h.toCalled.after hde, ?_, ?_, h.branches.grows h.store.toSound h.has hde.grows⟩
  · rw [hnode]
    exact h.library
  · rw [hnode]
    exact h.shape

theorem Forks.after (h : Forks ctx lib starts d request id found)
    (hde : Tells ctx lib starts d e) : Forks ctx lib starts e request id found := by
  refine ⟨h.toSplits.after hde, ?_⟩
  rw [hde.grows.node h.has]
  exact h.many

theorem asking_branchName {g : TypeGraph} {k : Keywords} {count : Nat}
    (hmany : ¬ (count = 1 ∧ (k.hasProperties || k.family.isSome) = false)) (index : Nat) :
    Request.asking ⟨branchName request index, request.placement⟩ g =
      Library.branchAsking k count index (request.asking g) := by
  unfold Library.branchAsking
  rw [if_neg hmany]
  rfl

theorem subschema_branch (k : Keywords) (index : Nat) :
    Subschema [(branchList k).1, toString index] := by
  unfold branchList
  split
  · exact .oneOf index
  · exact .anyOf index
  · exact .oneOf index

theorem branches_tells (h : Called ctx lib starts d request id) :
    Follows (Tells ctx lib starts) (branches ctx id (branchList (d.store.node id).keywords).1
      (branchList (d.store.node id).keywords).2) d fun found e => Branches e.store id found := by
  have hall := Follows.mapM (R := Tells ctx lib starts)
    (f := fun index => child ctx id [(branchList (d.store.node id).keywords).1, toString index])
    (I := fun e => Called ctx lib starts e request id) (P := fun _ _ _ => True)
    (fun _ _ _ _ _ _ h => h) (List.range (branchList (d.store.node id).keywords).2)
    (fun index _ e he => (child_tells he.toWarranted he.has (subschema_branch _ index)).imp
      fun _ _ het _ => ⟨he.after het, trivial⟩)
  have htells : Follows (Tells ctx lib starts)
      (branches ctx id (branchList (d.store.node id).keywords).1
        (branchList (d.store.node id).keywords).2) d fun _ _ => True := by
    unfold branches
    refine (hall d h).bind fun all e _ _ => ?_
    refine Follows.of_repeats (Repeats.filterM
      (p := fun branch => (e.store.node branch.id).shape ≠ .primitive .null)
      (fun branch => ?_) all) trivial
    exact rfl
  exact (htells.meet (branches_scans ctx h.store.toSound h.has) fun _ hde _ => hde).imp
    fun _ _ _ hfound => hfound.2

theorem effectiveShape_tells (f : Nat) (hd : Warranted ctx lib starts d) (hid : d.store.Has id) :
    Follows (Tells ctx lib starts) (effectiveShape ctx f id) d fun _ _ => True := by
  unfold effectiveShape
  refine Follows.after (a := d.store.node id) rfl ?_
  by_cases hshape : (d.store.node id).shape = .allOf
  · simp only [if_pos hshape]
    refine (mergeAllOf_tells f hd hid hshape).bind fun made e _ _ => ?_
    exact Follows.after (a := e.store.node made) rfl (Follows.pure trivial)
  · simp only [if_neg hshape]
    exact Follows.pure trivial

theorem effectiveShapes_tells (f : Nat) (h : Splits ctx lib starts d request id found) :
    Follows (Tells ctx lib starts) (found.mapM fun branch => effectiveShape ctx f branch.id) d
      fun shapes e =>
        List.Forall₂ (fun branch shape => Effective e f branch.id shape) found shapes := by
  have hall := Follows.mapM (R := Tells ctx lib starts)
    (f := fun (branch : Store.Child) => effectiveShape ctx f branch.id)
    (I := fun e => Splits ctx lib starts e request id found) (P := fun _ _ _ => True)
    (fun _ _ _ _ _ _ h => h) found
    (fun branch hbranch e he => (effectiveShape_tells f he.toWarranted
      (he.branches.has he.store.toSound branch hbranch)).imp
        fun _ _ het _ => ⟨he.after het, trivial⟩)
  exact ((hall d h).meet (effectiveShapes_scans ctx f h.store.toSound
    (h.branches.has h.store.toSound)) fun _ hde _ => hde).imp fun _ _ _ hshapes => hshapes.2

section Branches

variable (hrule : Heeds ctx lib starts rule)

include hrule

/-- The call for a branch, under the name that it has among all of them. -/
theorem branchRule_tells (h : Splits ctx lib starts d request id found) {branch : Store.Child}
    {index : Nat} (hbranch : found[index]? = some branch) {name : String}
    (hname : Request.asking ⟨name, request.placement⟩ d.graph = Library.branchAsking
      (d.store.node id).keywords found.length index (request.asking d.graph)) :
    Follows (Tells ctx lib starts) (branchRule rule request branch name) d fun _ _ => True := by
  obtain ⟨entries, hentries, hshown⟩ := alternatives_of_branches h.store h.branches
  obtain ⟨hindex, rfl⟩ := List.getElem?_eq_some_iff.mp hbranch
  have hlength := hshown.length_eq
  obtain ⟨i, hfound, hentry⟩ := hshown.get hindex (hlength ▸ hindex)
  have hhands : lib.Hands ctx.settings (d.store.node id).alone (request.asking d.graph) _ _ :=
    .branch h.shape hentries (List.getElem?_eq_getElem (hlength ▸ hindex))
  rw [List.get_eq_getElem] at hentry
  rw [hentry, ← hlength] at hhands
  unfold branchRule
  refine h.generate hrule h.library hfound h.fits ?_
  rw [hname]
  exact hhands

theorem collapse_tells (h : Forks ctx lib starts d request id found) :
    Follows (Tells ctx lib starts) (collapse rule request found) d fun _ _ => True := by
  have hall := Follows.mapM (R := Tells ctx lib starts)
    (f := fun (entry : Store.Child × Nat) =>
      branchRule rule request entry.1 (branchName request entry.2))
    (I := fun e => Forks ctx lib starts e request id found) (P := fun _ _ _ => True)
    (fun _ _ _ _ _ _ h => h) found.zipIdx
    (fun entry hentry e he => (branchRule_tells hrule he.toSplits
      (List.mem_zipIdx_iff_getElem?.mp hentry) (asking_branchName he.many _)).imp
        fun _ _ het _ => ⟨he.after het, trivial⟩)
  unfold collapse
  refine (hall d h).bind fun types e _ _ => ?_
  cases types <;> exact Follows.pure trivial

theorem addBranch_tells (h : Forks ctx lib starts d request id found) (marker : TypeId)
    {branch : Store.Child × Nat} (hbranch : branch ∈ found.zipIdx) :
    Follows (Tells ctx lib starts) (addBranch rule request marker kind branch) d
      fun _ _ => True := by
  unfold addBranch
  refine (branchRule_tells hrule h.toSplits (List.mem_zipIdx_iff_getElem?.mp hbranch)
    (asking_branchName h.many _)).bind fun t e _ _ => ?_
  cases t with
  | generated child =>
    exact Follows.change (tells_graph (keeps_linkBranch _ _ _ _) (size_linkBranch _ _ _ _)) trivial
  | _ => exact Follows.pure trivial

theorem markerOutcome_tells (h : Forks ctx lib starts d request id found) (hkind : kind ≠ .enum)
    (hdeclares : lib.Declares (d.store.node id).alone kind) :
    Follows (Tells ctx lib starts)
      (markerOutcome ctx rule request id (d.store.node id).keywords found kind) d
      fun _ _ => True := by
  unfold markerOutcome
  refine (declare_tells h.toCalled h.library hdeclares).bind fun made e hde howned => ?_
  cases made with
  | existing other => exact Follows.pure trivial
  | created marker =>
    have howned := howned marker rfl
    have hlink : ∀ t, Forks ctx lib starts t request id found → Follows (Tells ctx lib starts) (do
        found.zipIdx.forM (addBranch rule request marker kind)
        Pure.pure (TypeRef.generated marker) : Drafting TypeRef) t fun _ _ => True := by
      intro t ht
      have hall :=
        Follows.forM (R := Tells ctx lib starts) (f := addBranch rule request marker kind)
        (I := fun rest u => Forks ctx lib starts u request id found ∧ rest ⊆ found.zipIdx)
        (fun branch rest u hu => (addBranch_tells hrule hu.1 marker (hu.2 (by simp))).imp
          fun _ _ huv _ => ⟨hu.1.after huv, List.subset_of_cons_subset hu.2⟩)
      exact (hall _ t ⟨ht, List.Subset.refl _⟩).bind fun _ _ _ _ => Follows.pure trivial
    have he := h.after hde
    rw [← hde.grows.node h.has]
    simp only
    by_cases hbean : kind = .bean
    · subst hbean
      rw [if_pos rfl]
      exact (populate_tells hrule howned).bind fun _ t het _ => hlink t (he.after het)
    · rw [if_neg hbean]
      split
      · rename_i metadata hfamily
        exact (declareFamily_tells hrule howned hkind hfamily).bind fun _ t het _ =>
          hlink t (he.after het)
      · exact hlink e he

theorem unionOutcome_tells (h : Splits ctx lib starts d request id found) {k : Nat}
    {shapes : List Shape} (hplan : Plan d k id found shapes) :
    Follows (Tells ctx lib starts)
      (unionOutcome ctx rule request id (d.store.node id).keywords found shapes) d
      fun _ _ => True := by
  by_cases hlone : found.length = 1 ∧ ((d.store.node id).keywords.hasProperties ||
      (d.store.node id).keywords.family.isSome) = false
  · obtain ⟨only, rfl⟩ := List.length_eq_one_iff.mp hlone.1
    unfold unionOutcome
    rw [hlone.2]
    refine branchRule_tells hrule h (show [only][0]? = some only from rfl) ?_
    unfold Library.branchAsking
    rw [if_pos hlone]
  · have hforks : Forks ctx lib starts d request id found := ⟨h, hlone⟩
    have hmany : ∀ only, found = [only] → ((d.store.node id).keywords.hasProperties ||
        (d.store.node id).keywords.family.isSome) = true := by
      rintro only rfl
      by_contra hown
      exact hlone ⟨rfl, Bool.eq_false_iff.mpr hown⟩
    have hkind : marker? (d.store.node id).keywords found shapes = _ := marker?_of_many hmany
    rw [unionOutcome_of_many hmany]
    split
    · exact collapse_tells hrule hforks
    · rename_i hobjects
      rw [if_neg hobjects] at hkind
      refine markerOutcome_tells hrule hforks ?_ (declares_of_plan h.store h.shape hplan hkind)
      split <;> simp

theorem unionRule_tells (f : Nat) (h : Called ctx lib starts d request id)
    (hlib : library? (d.store.node id) = none) (hshape : (d.store.node id).shape = .union) :
    Follows (Tells ctx lib starts) (unionRule ctx f rule request id) d fun _ _ => True := by
  have hbranches := branches_tells h
  unfold unionRule
  refine Follows.after (a := d.store.node id) rfl ?_
  rcases hlist : branchList (d.store.node id).keywords with ⟨keyword, count⟩
  rw [hlist] at hbranches
  simp only [hlist]
  refine hbranches.bind fun found e hde hfound => ?_
  rw [← hde.grows.node h.has] at hlib hshape ⊢
  have he : Splits ctx lib starts e request id found := ⟨h.after hde, hlib, hshape, hfound⟩
  refine (effectiveShapes_tells f he).bind fun shapes t het hshapes => ?_
  have ht := he.after het
  rw [← het.grows.node he.has]
  exact unionOutcome_tells hrule ht ⟨ht.branches, hshapes⟩

end Branches

end Unions

theorem dispatchWith_tells (hrule : Heeds ctx lib starts rule) (f : Nat) :
    Heeds ctx lib starts (dispatchWith ctx f rule) := by
  intro d request id h
  cases htype : d.graph.typeAt? (d.store.node id).location with
  | some type => exact Follows.of_repeats (dispatchWith_typed htype) trivial
  | none =>
    cases hlib : library? (d.store.node id) with
    | some name => exact Follows.of_repeats (dispatchWith_library htype hlib) trivial
    | none =>
      refine Follows.of_run_eq (dispatchWith_shape htype hlib) ?_
      cases hshape : (d.store.node id).shape with
      | allOf =>
        refine (mergeAllOf_tells f h.toWarranted h.has hshape).bind fun made e hde hmade => ?_
        have he := h.after hde
        rw [← hde.grows.node h.has] at hlib hshape hmade
        exact hrule e request made ⟨he.toWarranted, he.store.bound hmade, he.fits,
          he.asked.merged hlib hshape (he.store.stands hmade)⟩
      | union => exact unionRule_tells hrule f h hlib hshape
      | enumeration => exact enumRule_tells h hlib hshape
      | object => exact objectRule_tells hrule h hlib hshape
      | array => exact arrayRule_tells hrule h hlib hshape
      | primitive p => exact Follows.after (a := d.store.node id) rfl (Follows.pure trivial)
      | any => exact Follows.pure trivial

theorem dispatch_tells (ctx : Context) (lib : Library) (starts : Location → Prop) :
    ∀ fuel, Heeds ctx lib starts (dispatch ctx fuel) := by
  intro fuel
  induction fuel with
  | zero => exact fun _ _ _ _ => Follows.throw
  | succ fuel ih => exact dispatchWith_tells ih (fuel + 1)

/-- Generating what a run starts from declares nothing but what is asked for. -/
theorem generate_tells (hd : Warranted ctx lib starts d) {place : Location}
    (hplace : starts place) :
    Follows (Tells ctx lib starts) (generate ctx place) d fun _ _ => True := by
  unfold generate
  refine (resolve_tells hd place).bind fun id e hde hid => ?_
  have he := hde.warranted hd
  refine Follows.after (a := e.store.node id) rfl (Follows.after (a := e) rfl ?_)
  exact dispatch_tells ctx lib starts _ e ⟨(e.store.node id).location.name, .topLevel⟩ id
    ⟨he, he.store.bound hid, (fun _ ho => by cases ho), .start hplace (he.store.stands hid)⟩

end SchemaBeans.Drafting
