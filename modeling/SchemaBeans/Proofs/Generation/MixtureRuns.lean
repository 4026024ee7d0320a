import SchemaBeans.Proofs.Generation.Mixtures

/-! # Merging what is on record

Once the members of a schema are on record on every level, nothing has to be looked up any more.
The schema merges then, if something comes out of its members and can be read, and no schema
among them is being merged already. -/
namespace SchemaBeans.Drafting

variable {ctx : Context} {files : FileSystem} {lib : Library} {st u : Store} {d e : Draft}
  {id made : NodeId} {indices : List Nat} {index : Nat} {settled : Bool}
  {parts : List Ingredient} {sofar all : AllOf} {v : Json}

theorem synthesize_ok (h : Legible v) (place : Location) (parent : NodeId) (st : Store) :
    ∃ made u, (Store.synthesize files place parent v).run st = (.ok made, u) := by
  obtain ⟨keywords, shape, hread, hplain, hshape⟩ := h
  have hget : (get : Store.Action Store).run st = (.ok st, st) := rfl
  unfold Store.synthesize
  rw [run_bind_ok hget]
  cases hknown : st.id? place with
  | some id => exact ⟨id, st, rfl⟩
  | none =>
    have hlift :
      ((Store.keywordsOf place v : Except Fault Keywords) : Store.Action Keywords).run st =
        (.ok keywords, st) := by
      rw [hread place]
      rfl
    dsimp only
    rw [run_bind_ok hget]
    unfold Store.materialize
    rw [run_bind_ok hlift]
    simp only [hplain, hshape]
    exact ⟨_, _, rfl⟩

theorem metAt_grows (hg : st.Grows u) {found : Store.Child} (hid : st.Has found.id) :
    metAt u found = metAt st found := by
  unfold metAt
  rw [hg.node hid]

theorem Lists.grows (hs : st.Sound) (hg : st.Grows u) (hid : st.Has id)
    (h : Lists st id indices settled parts) : Lists u id indices settled parts := by
  induction h with
  | nothing => exact .nothing
  | parent hfound hparent _ ih =>
    have hhas := hfound.has hs
    rw [← metAt_grows hg hhas] at hparent ⊢
    exact .parent (hfound.grows hs hid hg) hparent (ih hid)
  | plain hfound hparent hshape _ ih =>
    have hhas := hfound.has hs
    rw [← metAt_grows hg hhas] at hparent ⊢
    rw [← hg.node hhas] at hshape
    exact .plain (hfound.grows hs hid hg) hparent hshape (ih hid)
  | merged hfound hparent hshape _ _ ihinner ih =>
    have hhas := hfound.has hs
    have hinner := ihinner hhas
    rw [← metAt_grows hg hhas] at hparent ⊢
    rw [← hg.node hhas] at hshape hinner
    exact .merged (hfound.grows hs hid hg) hparent hshape hinner (ih hid)

theorem Comprises.grows (hs : st.Sound) (hg : st.Grows u) (hid : st.Has id)
    (h : Comprises st id parts) : Comprises u id parts := by
  have hall := Lists.grows hs hg hid h
  rw [← hg.node hid] at hall
  exact hall

theorem addMember_nested {merge : NodeId → Drafting NodeId} {found : Store.Child} {content : Json}
    (hfound : d.store.Found id ["allOf", toString index] found)
    (hnot : ((metAt d.store found).parent.isSome && !sofar.settled) = false)
    (hshape : (d.store.node found.id).shape = .allOf)
    (hmerge : (merge found.id).run d = (.ok made, e))
    (hcontent : (e.store.node made).content.anchor (e.store.node made).location.document =
      .ok content) :
    (addMember ctx merge id sofar index).run d =
      (.ok { sofar with
        merged := sofar.merged.merge ((metAt d.store found).passed content) }, e) := by
  have hparent : (found.byReference && !sofar.settled &&
      (d.store.node found.id).keywords.family.isSome) = false :=
    (adopts_metAt d.store found sofar.settled).symm.trans hnot
  have htarget : (node found.id).run d = (.ok (d.store.node found.id), d) := rfl
  have hpart : (node made).run e = (.ok (e.store.node made), e) := rfl
  have hlift : (((e.store.node made).content.anchor (e.store.node made).location.document :
      Except Fault Json) : Drafting Json).run e = (.ok content, e) := by
    rw [hcontent]
    rfl
  unfold addMember
  rw [run_bind_ok (child_repeats ctx hfound), run_bind_ok htarget, hparent]
  simp only [Bool.false_eq_true, if_false, hshape, if_true]
  rw [run_bind_ok hmerge, run_bind_ok hpart, run_bind_ok hlift, Met.passed, byReference_metAt]
  rfl

theorem mergeAllOf_of_fold {f : Nat} {own : Json} (hbar : id ∉ d.merging)
    (hfold : ((memberIndices (d.store.node id)).foldlM (addMember ctx (mergeAllOf ctx f) id)
      (started (d.store.node id).content)).run { d with merging := id :: d.merging } = (.ok all, e))
    (hown : (ownContent (d.store.node id).content).anchor
      (d.store.node id).location.document = .ok own)
    (hlegible : Legible ((extended all.parent all.merged).merge own)) :
    ∃ made t, (mergeAllOf ctx (f + 1) id).run d = (.ok made, t) := by
  have hcontains : d.merging.contains id = false := by simpa using hbar
  have hschema : (node id).run d = (.ok (d.store.node id), d) := rfl
  have hget : (get : Drafting Draft).run d = (.ok d, d) := rfl
  have hlift :
    ((((ownContent (d.store.node id).content).anchor (d.store.node id).location.document) :
      Except Fault Json) : Drafting Json).run { e with merging := e.merging.tail } =
        (.ok own, { e with merging := e.merging.tail }) := by
    rw [hown]
    rfl
  obtain ⟨made, u, hmakes⟩ := @synthesize_ok ctx.files _ hlegible
    ((d.store.node id).location.below ["allOf"]) id e.store
  refine ⟨made, { e with store := u, merging := e.merging.tail }, ?_⟩
  unfold mergeAllOf
  rw [run_bind_ok hschema, run_bind_ok hget, hcontains]
  simp only [Bool.false_eq_true, if_false]
  refine (run_bind_ok (run_change _ _)).trans ((run_bind_ok hfold).trans ?_)
  rw [run_bind_ok (run_change _ _), run_bind_ok hlift, run_inStore, hmakes]

theorem members_cons {f : Nat} {next : AllOf} {rest : List Nat}
    (hfirst : (addMember ctx (mergeAllOf ctx f) id sofar index).run d = (.ok next, e))
    (hrest : ∃ g t, (rest.foldlM (addMember ctx (mergeAllOf ctx g) id) next).run e = (.ok all, t)) :
    ∃ f t, ((index :: rest).foldlM (addMember ctx (mergeAllOf ctx f) id) sofar).run d =
      (.ok all, t) := by
  obtain ⟨g, t, hrest⟩ := hrest
  have hmore : ∀ k, k ≤ max f g → ∀ (sofar : AllOf) (index : Nat),
      Approximates (addMember ctx (mergeAllOf ctx k) id sofar index)
        (addMember ctx (mergeAllOf ctx (max f g)) id sofar index) :=
    fun k hle => addMember_approximates (mergeAllOf_approximates ctx hle) id
  refine ⟨max f g, t, ?_⟩
  rw [List.foldlM_cons, run_bind_ok ((hmore f (Nat.le_max_left f g) sofar index).ok hfirst)]
  exact (Approximates.foldlM (hmore g (Nat.le_max_right f g)) rest next).ok hrest

/-- A later state in which nothing is being merged that has fewer members than these, all told. -/
structure Later (ctx : Context) (lib : Library) (st : Store) (parts : List Ingredient) (d : Draft) :
    Prop where
  grows : st.Grows d.store
  truthful : d.store.Truthful ctx.files lib
  larger : ∀ other ∈ d.merging, ∃ others, Comprises st other others ∧ sizeOf parts ≤ sizeOf others

theorem Later.rest {part : Ingredient} (h : Later ctx lib st (part :: parts) d) :
    Later ctx lib st parts d := by
  refine ⟨h.grows, h.truthful, fun other hother => ?_⟩
  obtain ⟨others, hothers, hsize⟩ := h.larger other hother
  rw [List.cons.sizeOf_spec] at hsize
  exact ⟨others, hothers, by omega⟩

theorem Later.inner {met : Met} {inner : List Ingredient} {other : NodeId}
    (h : Later ctx lib st (.merged met inner :: parts) d) (hinner : Comprises st other inner) :
    other ∉ d.merging ∧ Later ctx lib st inner { d with merging := other :: d.merging } := by
  have hless : sizeOf inner < sizeOf (Ingredient.merged met inner :: parts) := by
    rw [List.cons.sizeOf_spec, Ingredient.merged.sizeOf_spec]
    omega
  constructor
  · intro hopen
    obtain ⟨others, hothers, hsize⟩ := h.larger other hopen
    rw [hothers.unique hinner] at hsize
    omega
  · refine ⟨h.grows, h.truthful, List.forall_mem_cons.mpr ⟨⟨inner, hinner, Nat.le_refl _⟩, ?_⟩⟩
    intro next hnext
    obtain ⟨others, hothers, hsize⟩ := h.larger next hnext
    exact ⟨others, hothers, by omega⟩

theorem Later.merged {met : Met} {inner : List Ingredient} {f : Nat} (hkeys : lib.KeysOnce)
    (hs : st.Sound) (h : Later ctx lib st (.merged met inner :: parts) d) (hid : st.Has id)
    (hshape : (st.node id).shape = .allOf) (hinner : Comprises st id inner)
    (hmaps : ∀ said ∈ contentsOf inner ++ [(st.node id).content], said.IsMap)
    (hmerge : (mergeAllOf ctx f id).run d = (.ok made, e)) :
    Later ctx lib st parts e ∧ MixedTo e.store id made inner := by
  have hthere := h.grows.has hid
  have hshape' : (d.store.node id).shape = .allOf := by rw [h.grows.node hid, hshape]
  obtain ⟨hgrows, hmerging, hmerges⟩ :=
    (mergeAllOf_grows _ _ d h.truthful.toSound hthere).success hmerge
  have hlearned := ((mergeAllOf_learns ctx _ _ d h.truthful hthere hshape').success hmerge).1
    h.truthful
  have hlater : Later ctx lib st parts e :=
    ⟨IsTrans.trans _ _ _ h.grows hgrows, hlearned, hmerging ▸ h.rest.larger⟩
  obtain ⟨others, hothers, hmade⟩ := merges_mixture hkeys hlearned _ _ made
    (by rw [hgrows.node hthere, hshape']) hmerges
  obtain rfl := hothers.unique (Comprises.grows hs hlater.grows hid hinner)
  rw [hlater.grows.node hid] at hmade
  exact ⟨hlater, hmade hmaps⟩

/-- The members that are on record are taken in, one after the other. -/
theorem Lists.run (hkeys : lib.KeysOnce) (hs : st.Sound) (h : Lists st id indices settled parts) :
    st.Has id → ∀ {d : Draft} {sofar all : AllOf}, Later ctx lib st parts d → LegibleAll parts →
      (∀ said ∈ contentsOf parts, said.IsMap) → sofar.settled = settled →
      mix parts sofar = .ok all → ∃ f e,
        (indices.foldlM (addMember ctx (mergeAllOf ctx f) id) sofar).run d = (.ok all, e) := by
  induction h with
  | nothing =>
    intro _ d sofar all _ _ _ _ hall
    cases hall
    exact ⟨0, d, rfl⟩
  | @parent id index rest found parts hfound hparent _ ih =>
    intro hid d sofar all hd hlegible hmaps hsettled hall
    have hadopted : ((metAt st found).parent.isSome && !sofar.settled) = true := by
      rw [hparent, hsettled]
      rfl
    have hmet := metAt_grows hd.grows (hfound.has hs)
    have htakes := @Takes.parent d.store (fun _ _ => False) id sofar index found
      (hfound.grows hs hid hd.grows) ((adopts_metAt d.store found _).symm.trans (hmet ▸ hadopted))
    refine members_cons (f := 0) (addMember_repeats htakes fun _ _ h => h.elim) ?_
    rw [@mix_adopted (.plain (metAt st found)) parts sofar hadopted, Ingredient.met,
      ← hmet, parent_of_isSome (hmet ▸ hparent)] at hall
    cases hlegible with
    | plain hlegible => exact ih hid hd.rest hlegible (List.forall_mem_append.mp hmaps).2 rfl hall
  | @plain id index rest settled found parts hfound hparent hshape _ ih =>
    intro hid d sofar all hd hlegible hmaps hsettled hall
    have hmet := metAt_grows hd.grows (hfound.has hs)
    rw [← hsettled] at hparent
    rw [@mix_taken (.plain (metAt st found)) parts sofar hparent] at hall
    obtain ⟨content, hcontent, hall⟩ := ok_of_bind hall
    rw [← hmet] at hcontent hparent
    have hmember :
        if (d.store.node found.id).shape = .allOf then False else found.id = found.id := by
      rw [hd.grows.node (hfound.has hs), if_neg hshape]
    have htakes := @Takes.part d.store (fun _ _ => False) id sofar index found found.id content
      (hfound.grows hs hid hd.grows) ((adopts_metAt d.store found _).symm.trans hparent) hmember
      hcontent
    refine members_cons (f := 0) (addMember_repeats htakes fun _ _ h => h.elim) ?_
    rw [← byReference_metAt d.store found, hmet]
    cases hlegible with
    | plain hlegible =>
      exact ih hid hd.rest hlegible (List.forall_mem_append.mp hmaps).2 hsettled hall
  | @merged id index rest settled found inner parts hfound hparent hshape hinner _ ihinner ih =>
    intro hid d sofar all hd hlegible hmaps hsettled hall
    obtain ⟨hfirst, hlast⟩ := List.forall_mem_append.mp hmaps
    have hmembers := (List.forall_mem_append.mp hfirst).1
    have hhas := hfound.has hs
    have hmet := metAt_grows hd.grows hhas
    have hnode := hd.grows.node hhas
    rw [← hsettled] at hparent
    rw [@mix_taken (.merged (metAt st found) inner) parts sofar hparent] at hall
    obtain ⟨content, hcontent, hall⟩ := ok_of_bind hall
    cases hlegible with
    | merged hmixture hlegible hlegibles hrest =>
    obtain ⟨inwards, own, hinwards, hown, rfl⟩ := mixture_ok hmixture
    obtain ⟨hfresh, hbelow⟩ := hd.inner hinner
    obtain ⟨g, t, hfold⟩ := ihinner hhas hbelow hlegibles hmembers rfl hinwards
    obtain ⟨made, u, hmerge⟩ := @mergeAllOf_of_fold ctx d t found.id inwards g own hfresh
      (by rw [hnode]; exact hfold) (by rw [hnode]; exact hown) hlegible
    obtain ⟨hlater, hmixed⟩ := hd.merged hkeys hs hhas hshape hinner hfirst hmerge
    have hdocument := hmixed.document
    have hwhole := hmixed.mixture
    rw [hlater.grows.node hhas] at hdocument hwhole
    have hanchored : (u.store.node made).content.anchor (u.store.node made).location.document =
        .ok content := by
      rw [said_merged] at hcontent
      obtain ⟨whole, kmixture, hcontent⟩ := ok_of_bind hcontent
      rw [hdocument, Except.ok.inj (hwhole.symm.trans kmixture)]
      exact hcontent
    have hshape' : (d.store.node found.id).shape = .allOf := by rw [hnode, hshape]
    refine members_cons (addMember_nested (hfound.grows hs hid hd.grows) (hmet ▸ hparent) hshape'
      hmerge hanchored) ?_
    rw [hmet]
    exact ih hid hlater hrest hlast hsettled hall

/-- A schema whose members are on record merges while nothing else is being merged, if something
comes out and can be read. -/
theorem Comprises.run (hkeys : lib.KeysOnce) (ht : d.store.Truthful ctx.files lib)
    (hid : d.store.Has id) (hopen : d.merging = []) (hparts : Comprises d.store id parts)
    (hmaps : ∀ said ∈ contentsOf parts, said.IsMap) (hlegible : LegibleAll parts)
    (hmixture : mixture (d.store.node id).location.document (d.store.node id).content parts = .ok v)
    (hv : Legible v) : ∃ f made e, (mergeAllOf ctx f id).run d = (.ok made, e) := by
  obtain ⟨all, own, hall, hown, rfl⟩ := mixture_ok hmixture
  have hlater : Later ctx lib d.store parts { d with merging := id :: d.merging } := by
    refine ⟨refl _, ht, ?_⟩
    rw [hopen]
    exact List.forall_mem_singleton.mpr ⟨parts, hparts, Nat.le_refl _⟩
  obtain ⟨g, t, hfold⟩ := Lists.run hkeys ht.toSound hparts hid hlater hlegible hmaps rfl hall
  have hfresh : id ∉ d.merging := by
    rw [hopen]
    exact List.not_mem_nil
  obtain ⟨made, e, hrun⟩ := mergeAllOf_of_fold hfresh hfold hown hv
  exact ⟨g + 1, made, e, hrun⟩

end SchemaBeans.Drafting
