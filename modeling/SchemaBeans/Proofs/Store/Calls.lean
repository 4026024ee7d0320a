import Mathlib.Logic.Relation
import SchemaBeans.Proofs.Store.Chains

/-! # Calls of a store

A caller makes documents known, looks schemas up, puts merged schemas in and may start over. Between
two starts a store only grows, and every call comes to an end. -/
namespace SchemaBeans.Store

open Relation

/-- What a caller can ask of a store. -/
inductive Call where
  | register (document : String) (content : Json)
  | clear
  | resolve (place : Location)
  | load (path : String)
  | child (parent : NodeId) (segments : List String)
  | reference (source : NodeId) (text : String)
  | synthesize (place : Location) (parent : NodeId) (content : Json)

def Call.action (files : FileSystem) : Call → Action Unit
  | register document content => modify (·.register document content)
  | clear => set ({} : Store)
  | resolve place => do let _ ← Store.resolve files place
  | load path => do let _ ← Store.load files path
  | child parent segments => do let _ ← Store.child files parent segments
  | reference source text => do let _ ← Store.resolveReference files source text
  | synthesize place parent content => do let _ ← Store.synthesize files place parent content

def Call.Known (st : Store) : Call → Prop
  | child parent _ => st.Has parent
  | reference source _ => st.Has source
  | _ => True

/-- One of the allowed calls leads from the first store to the second one, whatever it answers. The
files may be other ones at each call. -/
inductive Calls (allows : FileSystem → Call → Prop) : Store → Store → Prop
  | intro {st u : Store} {files : FileSystem} {call : Call} {r : Except Fault Unit}
      (hallowed : allows files call) (hknown : call.Known st)
      (hrun : (call.action files).run st = (r, u)) : Calls allows st u

theorem Calls.of_run {allows : FileSystem → Call → Prop} {files : FileSystem} {st : Store}
    (call : Call) (hallowed : allows files call) (hknown : call.Known st) :
    Calls allows st ((call.action files).run st).2 := .intro hallowed hknown rfl

/-- The stores that allowed calls lead to, successful or not. -/
def Reaches (allows : FileSystem → Call → Prop) : Store → Store → Prop :=
  ReflTransGen (Calls allows)

variable {files : FileSystem} {st u : Store} {call : Call}

theorem sound_of_empty {st : Store} (hnodes : st.nodes = #[]) (hindex : st.index = []) :
    st.Sound := by
  constructor
  · intro place id h
    simp [id?, hindex] at h
  · intro id h
    simp [Has, hnodes] at h

theorem load_grows (path : String) (hs : st.Sound) :
    Follows Grows (load files path) st (fun _ _ => True) :=
  Follows.lift_bind fun _ _ => (resolve_grows files _ hs).imp fun _ _ _ _ => trivial

theorem Call.grows (files : FileSystem) (hs : st.Sound) (hknown : call.Known st)
    (hcall : call ≠ .clear) : Follows Grows (call.action files) st (fun _ _ => True) := by
  have hdiscard : ∀ {α : Type} {x : Action α} {Q : α → Store → Prop}, Follows Grows x st Q →
      Follows Grows (do let _ ← x) st (fun _ _ => True) :=
    fun h => h.bind fun _ _ _ _ => Follows.pure trivial
  cases call with
  | register document content => exact Follows.change (grows_register st document content) trivial
  | clear => exact absurd rfl hcall
  | resolve place => exact hdiscard (resolve_grows files place hs)
  | load path => exact hdiscard (load_grows path hs)
  | child parent segments => exact hdiscard (child_grows segments hs hknown)
  | reference source text => exact hdiscard (resolveReference_grows source text hs)
  | synthesize place parent content =>
    exact hdiscard (synthesize_grows files place parent content hs)

theorem ofPath_ends {current path : String} : Document.ofPath current path ≠ .error .endless := by
  unfold Document.ofPath
  split <;> simp

theorem Call.ends (files : FileSystem) (st : Store) (call : Call) :
    Ends (call.action files) st fun _ _ => True := by
  have hdiscard : ∀ {α : Type} {x : Action α}, (Ends x st fun _ _ => True) →
      Ends (do let _ ← x) st fun _ _ => True :=
    fun h => h.bind fun _ _ _ => Ends.pure trivial
  have hlift : ∀ {e : Except Fault String}, e ≠ .error .endless →
      Ends (liftM e : Action String) st fun _ t => t = st :=
    fun h => Ends.lift h fun _ _ => rfl
  cases call with
  | register document content => exact Ends.change trivial
  | clear =>
    intro r t h
    cases h
    exact ⟨by simp, fun _ _ => trivial⟩
  | resolve place => exact hdiscard (resolve_ends files st place)
  | load path =>
    refine hdiscard ((hlift ofPath_ends).bind ?_)
    rintro document _ rfl
    exact resolve_ends files _ _
  | child parent segments => exact hdiscard (child_ends files st parent segments)
  | reference source text =>
    refine hdiscard (Ends.after (a := st) rfl ?_)
    refine Ends.bind (P := fun _ t => t = st) (Ends.lift ofReference_ends fun _ _ => rfl) ?_
    rintro target _ rfl
    exact resolve_ends files _ _
  | synthesize place parent content =>
    exact hdiscard (synthesize_ends files st place parent content)

theorem Calls.sound {allows : FileSystem → Call → Prop} (h : Calls allows st u) (hs : st.Sound) :
    u.Sound := by
  cases h with | @intro files call r _ hknown hrun
  by_cases hcall : call = .clear
  · subst hcall
    cases hrun
    exact sound_of_empty rfl rfl
  · exact ((call.grows files hs hknown hcall) _ _ hrun ((call.ends files st) _ _ hrun).1).1.sound hs

theorem Reaches.sound {allows : FileSystem → Call → Prop} (h : Reaches allows st u)
    (hs : st.Sound) : u.Sound := by
  induction h with
  | refl => exact hs
  | tail _ hcall ih => exact hcall.sound ih

theorem Reaches.grows {allows : FileSystem → Call → Prop} (h : Reaches allows st u)
    (hallows : ∀ files, ¬ allows files .clear) (hs : st.Sound) : Grows st u := by
  induction h with
  | refl => exact refl st
  | @tail t _ hreach hcall ih =>
    cases hcall with | @intro files call r hallowed hknown hrun
    have hcall : call ≠ .clear := fun h => hallows files (h ▸ hallowed)
    exact IsTrans.trans _ _ _ ih ((call.grows files (Reaches.sound hreach hs) hknown hcall) _ _ hrun
      ((call.ends files t) _ _ hrun).1).1

end SchemaBeans.Store
