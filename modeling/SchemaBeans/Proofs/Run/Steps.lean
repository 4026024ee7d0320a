import SchemaBeans.Proofs.Generation.RuleRuns
import SchemaBeans.Proofs.Store.Calls
import SchemaBeans.Run

/-! # Runs from the outside

A caller registers schemas, has them generated and may start over. Every request comes down to
registering documents and generating places, so whatever holds of all moves holds of all runs. A
request that is endless has no state after it; a run ends there. -/
namespace SchemaBeans.Run

open Drafting

/-- What a caller can ask of a run. -/
inductive Step where
  | register (document : String) (content : Json)
  | registerText (name text : String)
  | addText (name text : String)
  | addFile (path : String)
  | addReference (reference : String)
  | generate (place : Location)
  | reset

def Step.action (ctx : Context) : Step → Drafting Unit
  | register document content =>
    modify fun draft => { draft with store := draft.store.register document content }
  | registerText name text => do let _ ← Run.registerText name text
  | addText name text => do let _ ← Run.addText ctx name text
  | addFile path => do let _ ← Run.addFile ctx path
  | addReference reference => do let _ ← Run.addReference ctx reference
  | generate place => do let _ ← Drafting.generate ctx place
  | reset => Run.reset

/-- The steps lead from the first state to the second one, whether they succeed or fail. -/
inductive Reaches (ctx : Context) : Draft → List Step → Draft → Prop
  | done (d : Draft) : Reaches ctx d [] d
  | step {d e f : Draft} {step : Step} {rest : List Step} {r : Except Fault Unit}
      (hrun : (step.action ctx).run d = (r, e)) (hends : r ≠ .error .endless)
      (hrest : Reaches ctx e rest f) : Reaches ctx d (step :: rest) f

/-- The steps lead from the first state to the second one, and all of them succeed. -/
inductive Succeeds (ctx : Context) : Draft → List Step → Draft → Prop
  | done (d : Draft) : Succeeds ctx d [] d
  | step {d e f : Draft} {step : Step} {rest : List Step}
      (hrun : (step.action ctx).run d = (.ok (), e))
      (hrest : Succeeds ctx e rest f) : Succeeds ctx d (step :: rest) f

variable {ctx : Context} {d e : Draft} {steps : List Step}

theorem Succeeds.reaches (h : Succeeds ctx d steps e) : Reaches ctx d steps e := by
  induction h with
  | done => exact .done _
  | step hrun _ ih => exact .step hrun (by simp) ih

theorem run_of_fst {α : Type} {x : Drafting α} {r : Except Fault α} (h : (x.run d).1 = r) :
    x.run d = (r, (x.run d).2) := Prod.ext h rfl

def isEndless {α : Type} : Except Fault α → Bool
  | .error .endless => true
  | _ => false

theorem Reaches.of_run {rest : List Step} (step : Step)
    (h : isEndless ((step.action ctx).run d).1 = false)
    (hrest : Reaches ctx ((step.action ctx).run d).2 rest e) : Reaches ctx d (step :: rest) e := by
  refine .step rfl (fun hend => ?_) hrest
  have hrun : ((step.action ctx).run d).1 = .error .endless := hend
  rw [hrun] at h
  cases h

theorem Succeeds.of_run {rest : List Step} (step : Step)
    (h : ((step.action ctx).run d).1.toOption = some ())
    (hrest : Succeeds ctx ((step.action ctx).run d).2 rest e) : Succeeds ctx d (step :: rest) e :=
  .step (Prod.ext (eq_ok_of_toOption h) rfl) hrest

/-- The documents that the step makes known are allowed. -/
def Step.Registers (allowed : String → Json → Prop) : Step → Prop
  | .register document content => allowed document content
  | .registerText name text | .addText name text =>
    ∀ content, Json.ofText? text = .ok content → allowed (Document.ofName name) content
  | _ => True

/-- A property of compound steps that every request of a caller has if it registers nothing but what
is allowed, a reset apart. -/
structure Stepwise (ctx : Context) (allowed : String → Json → Prop)
    (P : ∀ {α : Type}, Drafting α → Prop) : Prop where
  pure {α : Type} (a : α) : P (Pure.pure a)
  throw {α : Type} {fault : Fault} (hfault : fault ≠ .endless) :
    P (MonadExcept.throw fault : Drafting α)
  bind {α β : Type} {x : Drafting α} {f : α → Drafting β} (hx : P x) (hf : ∀ a, P (f a)) :
    P (x >>= f)
  lift {α : Type} {e : Except Fault α} (he : e ≠ .error .endless) : P (liftM e : Drafting α)
  register {document : String} {content : Json} (h : allowed document content) :
    P (modify fun draft => { draft with store := draft.store.register document content } :
      Drafting Unit)
  generate (place : Location) : P (Drafting.generate ctx place)

section Stepwise

variable {allowed : String → Json → Prop} {P : ∀ {α : Type}, Drafting α → Prop}
  (h : Stepwise ctx allowed P)

include h

theorem Stepwise.registerText {name text : String}
    (hallowed : ∀ content, Json.ofText? text = .ok content →
      allowed (Document.ofName name) content) : P (Run.registerText name text) := by
  unfold Run.registerText
  dsimp only
  split
  · exact h.throw (by simp)
  · rename_i content hcontent
    exact h.bind (h.register (hallowed content hcontent)) fun _ => h.pure _

theorem Stepwise.addReference (reference : String) : P (Run.addReference ctx reference) := by
  unfold Run.addReference
  split
  rename_i name fragment _
  have hplace : ∀ document : String, P (do
      let place ← (Location.ofReference document ("#" ++ fragment) : Except Fault Location)
      Drafting.generate ctx place) :=
    fun _ => h.bind (h.lift Store.ofReference_ends) fun _ => h.generate _
  split
  · exact hplace name
  · exact h.bind (h.lift Store.ofPath_ends) hplace

theorem Stepwise.action (step : Step) (hstep : step ≠ .reset) (hallowed : step.Registers allowed) :
    P (step.action ctx) := by
  have hdiscard : ∀ {α : Type} {x : Drafting α}, P x → P (do let _ ← x) :=
    fun hx => h.bind hx fun _ => h.pure _
  cases step with
  | register document content => exact h.register hallowed
  | registerText name text => exact hdiscard (h.registerText hallowed)
  | addText name text =>
    exact hdiscard (h.bind (h.registerText hallowed) fun _ => h.generate _)
  | addFile path => exact hdiscard (h.bind (h.lift Store.ofPath_ends) fun _ => h.generate _)
  | addReference reference => exact hdiscard (h.addReference reference)
  | generate place => exact hdiscard (h.generate place)
  | reset => exact absurd rfl hstep

end Stepwise

theorem Stepwise.any_action {P : ∀ {α : Type}, Drafting α → Prop}
    (h : Stepwise ctx (fun _ _ => True) P) (step : Step)
    (hstep : step ≠ .reset) : P (step.action ctx) := by
  refine h.action step hstep ?_
  cases step <;> simp [Step.Registers]

theorem values_mono (files : FileSystem) {st u : Store} (h : st.Grows u) :
    st.values files ≤ u.values files := by
  have hinit : ∀ (documents : List (String × Json)) (a b : Nat), a ≤ b →
      documents.foldl (fun total document => total + document.2.size) a ≤
        documents.foldl (fun total document => total + document.2.size) b := by
    intro documents
    induction documents with
    | nil => exact fun _ _ h => h
    | cons document rest ih => exact fun a b h => ih _ _ (Nat.add_le_add_right h _)
  have hgrow : ∀ (documents : List (String × Json)) (a : Nat),
      a ≤ documents.foldl (fun total document => total + document.2.size) a := by
    intro documents
    induction documents with
    | nil => exact fun _ => Nat.le_refl _
    | cons document rest ih => exact fun a => Nat.le_trans (Nat.le_add_right _ _) (ih _)
  obtain ⟨newer, hnewer⟩ := h.documents
  unfold Store.values
  rw [← hnewer, List.foldl_append]
  exact hinit _ _ _ (hgrow newer _)

theorem depth_mono (ctx : Context) (h : d.store.Grows e.store) : depth ctx d ≤ depth ctx e := by
  have hvalues := values_mono ctx.files h
  have hnodes := h.size_le
  unfold depth
  exact Nat.mul_le_mul (by omega) (by omega)

theorem depth_pos (ctx : Context) (d : Draft) : 0 < depth ctx d := by
  unfold depth
  exact Nat.mul_pos (by omega) (by omega)

def SettledAt (ctx : Context) (d : Draft) (place : Location) (t : TypeRef) : Prop :=
  ∃ id k, d.store.id? place = some id ∧ k ≤ depth ctx d ∧ Settles ctx d k id t

theorem SettledAt.leads {base : Nat} {place : Location} {t : TypeRef} (hd : Consistent d)
    (hl : Leads ctx base d e)
    (h : SettledAt ctx d place t) : SettledAt ctx e place t := by
  obtain ⟨id, k, hid, hk, ht⟩ := h
  refine ⟨id, k, hl.retains.grows.index hid, ?_, ht.keeps hd.store hl.retains (hd.store.bound hid)⟩
  exact Nat.le_trans hk (depth_mono ctx hl.retains.grows)

/-- All types from a number on are complete, at a depth that the state allows. -/
def FilledFrom (ctx : Context) (base : Nat) (d : Draft) : Prop := Filled ctx d (depth ctx d) base

/-- All types from a number on are built, at a depth that the state allows. -/
def BuiltFrom (ctx : Context) (base : Nat) (d : Draft) : Prop := Built ctx d (depth ctx d) base

theorem generate_acts (hd : Consistent d) (place : Location) :
    Follows (Acts ctx d.graph.size) (generate ctx place) d
      (fun t e => SettledAt ctx e place t ∧ BuiltFrom ctx d.graph.size e) := by
  unfold generate
  have hresolve := (inStore_follows (R := Scans)
    (Store.resolve_grows ctx.files place hd.store) fun _ hg => scans_schemas hg).imp
    (Q := fun id e => Scans d e ∧ e.store.id? place = some id) fun _ _ hs ⟨_, hid⟩ => ⟨hs, hid⟩
  refine (hresolve.along fun e hs => .single (act_schemas hs)).bind fun id e hl ⟨hs, hid⟩ => ?_
  have he := hl.consistent hd
  refine Follows.after (a := e.store.node id) rfl (Follows.after (a := e) rfl ?_)
  have hdispatch := dispatch_works ctx (depth ctx e) e
    ⟨(e.store.node id).location.name, .topLevel⟩ id he
    (he.store.bound hid) fun owner ho => by cases ho
  rw [← hs.graph]
  refine hdispatch.imp fun t u heu ⟨ht, hbuilt⟩ => ?_
  have hdepth : depth ctx e ≤ depth ctx u := depth_mono ctx heu.retains.grows
  exact ⟨⟨id, _, heu.retains.grows.index hid, hdepth, ht⟩,
    hbuilt.mono (heu.consistent he).store hdepth⟩

theorem generate_follows (hd : Consistent d) (place : Location) :
    Follows (Leads ctx d.graph.size) (generate ctx place) d
      (fun t e => SettledAt ctx e place t ∧ FilledFrom ctx d.graph.size e) :=
  ((generate_acts hd place).along fun _ ha => ha.leads).imp fun _ _ _ h => ⟨h.1, h.2.filled⟩

theorem scans_register (d : Draft) (document : String) (content : Json) :
    Scans d { d with store := d.store.register document content } :=
  scans_schemas (Store.grows_register d.store document content)

theorem registerText_scans (name text : String) :
    Follows Scans (Run.registerText name text) d (fun _ e => Scans d e) := by
  unfold Run.registerText
  simp only
  split
  · exact Follows.throw
  · rename_i content _
    exact Follows.change_bind (scans_register d _ content)
      (Follows.pure (scans_register d _ content))

theorem builtFrom_scans (h : Scans d e) : BuiltFrom ctx d.graph.size e := by
  rw [← h.graph]
  exact built_size

theorem generate_builds (hd : Consistent d) (place : Location) :
    Follows (Acts ctx d.graph.size) (generate ctx place) d
      (fun _ e => BuiltFrom ctx d.graph.size e) :=
  (generate_acts hd place).imp fun _ _ _ h => h.2

theorem addText_builds (hd : Consistent d) (name text : String) :
    Follows (Acts ctx d.graph.size) (Run.addText ctx name text) d
      (fun _ e => BuiltFrom ctx d.graph.size e) := by
  refine ((registerText_scans name text).along fun e hs => .single (act_schemas hs)).bind ?_
  intro document e hl hs
  rw [← hs.graph]
  exact generate_builds (hl.consistent hd) _

theorem addFile_builds (hd : Consistent d) (path : String) :
    Follows (Acts ctx d.graph.size) (Run.addFile ctx path) d
      (fun _ e => BuiltFrom ctx d.graph.size e) :=
  Follows.lift_bind fun _ _ => generate_builds hd _

theorem addReference_builds (hd : Consistent d) (reference : String) :
    Follows (Acts ctx d.graph.size) (Run.addReference ctx reference) d
      (fun _ e => BuiltFrom ctx d.graph.size e) := by
  unfold Run.addReference
  split
  rename_i name fragment _
  have hplace : ∀ document : String, Follows (Acts ctx d.graph.size) (do
      let place ← (Location.ofReference document ("#" ++ fragment) : Except Fault Location)
      generate ctx place) d (fun _ e => BuiltFrom ctx d.graph.size e) :=
    fun document => Follows.lift_bind fun place _ => generate_builds hd place
  split
  · exact hplace name
  · exact Follows.lift_bind fun document _ => hplace document

/-- Every step but a reset is a row of acts, and if it succeeds it builds what it declared. -/
theorem Step.acts (hd : Consistent d) (step : Step) (hstep : step ≠ .reset) :
    Follows (Acts ctx d.graph.size) (step.action ctx) d
      (fun _ e => BuiltFrom ctx d.graph.size e) := by
  have hdiscard : ∀ {x : Drafting TypeRef}, Follows (Acts ctx d.graph.size) x d
      (fun _ e => BuiltFrom ctx d.graph.size e) →
      Follows (Acts ctx d.graph.size) (do let _ ← x) d
        (fun _ e => BuiltFrom ctx d.graph.size e) :=
    fun h => h.bind fun _ _ _ h => Follows.pure h
  cases step with
  | register document content =>
    have hs := scans_register d document content
    exact Follows.change (.single (act_schemas hs)) (builtFrom_scans hs)
  | registerText name text =>
    refine ((registerText_scans name text).along fun e hs => .single (act_schemas hs)).bind ?_
    exact fun _ e _ hs => Follows.pure (builtFrom_scans hs)
  | addText name text => exact hdiscard (addText_builds hd name text)
  | addFile path => exact hdiscard (addFile_builds hd path)
  | addReference reference => exact hdiscard (addReference_builds hd reference)
  | generate place => exact hdiscard (generate_builds hd place)
  | reset => exact absurd rfl hstep

/-- Every step but a reset makes moves, and if it succeeds it completes what it declared. -/
theorem Step.follows (hd : Consistent d) (step : Step) (hstep : step ≠ .reset) :
    Follows (Leads ctx d.graph.size) (step.action ctx) d
      (fun _ e => FilledFrom ctx d.graph.size e) :=
  ((step.acts hd hstep).along fun _ ha => ha.leads).imp fun _ _ _ h => h.filled

theorem Reaches.invariant_acts {P : Draft → Prop} (h : Reaches ctx d steps e) (hd : Consistent d)
    (hP : P d) (hempty : P {})
    (hacts : ∀ base d e, Consistent d → P d → Acts ctx base d e → P e) :
    Consistent e ∧ P e := by
  induction h with
  | done => exact ⟨hd, hP⟩
  | @step d e f step rest r hrun hends _ ih =>
    by_cases hstep : step = .reset
    · subst hstep
      cases hrun
      exact ih consistent_empty hempty
    · have ha := ((step.acts hd hstep) _ _ hrun hends).1
      exact ih (ha.consistent hd) (hacts _ _ _ hd hP ha)

theorem Reaches.invariant {P : Draft → Prop} (h : Reaches ctx d steps e) (hd : Consistent d)
    (hP : P d) (hempty : P {})
    (hleads : ∀ base d e, Consistent d → P d → Leads ctx base d e → P e) :
    Consistent e ∧ P e :=
  h.invariant_acts hd hP hempty fun _ _ _ hd hP ha => hleads _ _ _ hd hP ha.leads

theorem Reaches.consistent (h : Reaches ctx d steps e) (hd : Consistent d) : Consistent e :=
  (h.invariant (P := fun _ => True) hd trivial trivial fun _ _ _ _ _ _ => trivial).1

theorem Reaches.leads (h : Reaches ctx d steps e) (hd : Consistent d) (hsteps : .reset ∉ steps) :
    Leads ctx 0 d e := by
  induction h with
  | done => exact refl _
  | @step d e f step rest r hrun hends _ ih =>
    have hstep : step ≠ .reset := fun h => hsteps (by simp [h])
    have hl := ((step.follows hd hstep) _ _ hrun hends).1
    exact IsTrans.trans _ _ _ (hl.lower (Nat.zero_le _))
      (ih (hl.consistent hd) fun h => hsteps (List.mem_cons_of_mem _ h))

theorem Reaches.claimed (h : Reaches ctx {} steps d) : (d.families.map (·.parent)).Nodup :=
  (h.invariant_acts (P := fun d => (d.families.map (·.parent)).Nodup) consistent_empty
    List.nodup_nil List.nodup_nil fun _ _ _ _ hd ha => ha.claimed hd).2

theorem Succeeds.invariant {P : Draft → Prop} (h : Succeeds ctx d steps e) (hd : Consistent d)
    (hP : P d) (hempty : P {}) (hacts : ∀ d e, Consistent d → P d → Acts ctx d.graph.size d e →
      BuiltFrom ctx d.graph.size e → P e) : P e := by
  induction h with
  | done => exact hP
  | @step d e f step rest hrun _ ih =>
    by_cases hstep : step = .reset
    · subst hstep
      cases hrun
      exact ih consistent_empty hempty
    · obtain ⟨ha, hnew⟩ := (step.acts hd hstep).success hrun
      exact ih (ha.consistent hd) (hacts _ _ hd hP ha hnew)

theorem builtFrom_empty : BuiltFrom ctx 0 {} := built_size (d := {})

theorem Succeeds.filled (h : Succeeds ctx d steps e) (hd : Consistent d)
    (hfilled : FilledFrom ctx 0 d) : FilledFrom ctx 0 e := by
  refine h.invariant (P := FilledFrom ctx 0) hd hfilled builtFrom_empty.filled
    fun d e hd hfilled ha hnew => Filled.after hd.store ha.leads ?_ hnew.filled
  exact hfilled.mono hd.store (depth_mono ctx ha.retains.grows)

theorem Succeeds.built (h : Succeeds ctx {} steps d) : BuiltFrom ctx 0 d := by
  refine h.invariant (P := BuiltFrom ctx 0) consistent_empty builtFrom_empty builtFrom_empty
    fun d e hd hbuilt ha hnew => Built.after hd.store ha ?_ hnew
  exact hbuilt.mono hd.store (depth_mono ctx ha.retains.grows)

end SchemaBeans.Run
