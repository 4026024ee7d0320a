import SchemaBeans.Proofs.Generation.WarrantRuns

/-! # More documents

Whatever is found in the documents is found when there are more of them, as long as none takes the
place of another one. So a run that registers documents in between keeps everything it has on
record. -/
namespace SchemaBeans

namespace Library

open Drafting

variable {lib more : Library} {settings : Settings} {starts : Location → Prop} {place : Location}
  {schema : SchemaNode} {asking : Asking}

theorem Finds.mono (hsub : lib.Sub more) {finding : Finding} (h : lib.Finds finding) :
    more.Finds finding := by
  induction h with
  | document h => exact .document (h.mono hsub)
  | child _ hsegments hpart ih => exact .child ih hsegments hpart
  | merge _ hread hallOf _ hown ih ihmembers => exact .merge ih hread hallOf ihmembers hown
  | plain _ hread hplain ih => exact .plain ih hread hplain
  | refers _ hread href htarget _ ih ihschema => exact .refers ih hread href htarget ihschema
  | nothing _ ih => exact .nothing ih
  | parent _ _ hread hparent ih ihmember => exact .parent ih ihmember hread hparent
  | part _ _ hread hparent hallOf hcontent ih ihmember =>
    exact .part ih ihmember hread hparent hallOf hcontent
  | nested _ _ hread hparent hallOf _ hcontent ih ihmember ihinner =>
    exact .nested ih ihmember hread hparent hallOf ihinner hcontent

theorem Stands.mono (hsub : lib.Sub more) (h : lib.Stands place schema) :
    more.Stands place schema :=
  ⟨h.toRead, h.finds.mono hsub, h.alone⟩

theorem GeneratesAs.mono (hsub : lib.Sub more) {shape : Shape} (h : lib.GeneratesAs schema shape) :
    more.GeneratesAs schema shape := by
  cases h with
  | own h => exact .own h
  | merged h hmade => exact .merged h (hmade.mono hsub)

theorem Alternatives.mono (hsub : lib.Sub more) {found : List (Location × SchemaNode)}
    (h : lib.Alternatives schema found) : more.Alternatives schema found := by
  obtain ⟨all, hall, hfound⟩ := h
  exact ⟨all, hall.imp fun _ _ hbranch => ⟨hbranch.1, hbranch.2.mono hsub⟩, hfound⟩

theorem Declares.mono (hsub : lib.Sub more) {kind : TypeKind} (h : lib.Declares schema kind) :
    more.Declares schema kind := by
  cases h with
  | object hshape => exact .object hshape
  | enumeration hshape => exact .enumeration hshape
  | union hshape hfound hshapes hkind =>
    exact .union hshape (hfound.mono hsub) (hshapes.imp fun _ _ h => h.mono hsub) hkind

theorem Hands.mono (hsub : lib.Sub more) {inner : Asking}
    (h : Hands settings lib schema asking place inner) :
    Hands settings more schema asking place inner := by
  cases h with
  | superclass hkind hsuper => exact .superclass (hkind.mono hsub) hsuper
  | property hkind hkey => exact .property (hkind.mono hsub) hkey
  | additional hkind henabled htyped => exact .additional (hkind.mono hsub) henabled htyped
  | family hkind hne hplace => exact .family (hkind.mono hsub) hne hplace
  | items hshape htyped => exact .items hshape htyped
  | branch hshape hfound hentry => exact .branch hshape (hfound.mono hsub) hentry

theorem Asked.mono (hsub : lib.Sub more) (h : Asked settings lib starts schema asking) :
    Asked settings more starts schema asking := by
  induction h with
  | start hplace hschema => exact .start hplace (hschema.mono hsub)
  | merged _ hlib hshape hmade ih => exact .merged ih hlib hshape (hmade.mono hsub)
  | handed _ hlib hhands hchild ih =>
    exact .handed ih hlib (hhands.mono hsub) (hchild.mono hsub)

end Library

/-- Nothing that was on record becomes untrue by one more document. -/
theorem Store.Truthful.register {files : FileSystem} {lib : Library} {st : Store}
    (h : st.Truthful files lib) {name : String} {content : Json}
    (hsub : lib.Sub ((st.register name content).library files)) :
    (st.register name content).Truthful files ((st.register name content).library files) where
  bound := h.bound
  own := h.own
  library := rfl
  finds place id hid := (h.finds place id hid).mono hsub
  read := h.read

namespace Drafting

variable {ctx : Context} {full : Library} {starts : Location → Prop} {d : Draft}

theorem Warranted.register {lib : Library} (h : Warranted ctx lib starts d) {name : String}
    {content : Json} (hsub : lib.Sub ((d.store.register name content).library ctx.files)) :
    Warranted ctx ((d.store.register name content).library ctx.files) starts
      { d with store := d.store.register name content } := by
  refine ⟨h.store.register hsub, h.nests, fun type htype => ?_⟩
  obtain ⟨schema, asking, hw⟩ := h.types type htype
  exact ⟨schema, asking, hw.asked.mono hsub, hw.place, hw.library, hw.kind.mono hsub, hw.named⟩

/-- The state has only documents of the whole library, and records what they say. -/
structure Served (ctx : Context) (full : Library) (d : Draft) : Prop where
  sub : (d.store.library ctx.files).Sub full
  warranted : Warranted ctx (d.store.library ctx.files) (fun _ => True) d

def StaysServed (ctx : Context) (full : Library) (d e : Draft) : Prop :=
  Served ctx full d → Served ctx full e

instance : IsPreorder Draft (StaysServed ctx full) where
  refl _ := id
  trans _ _ _ h k := k ∘ h

/-- The step keeps to the documents of the whole library. -/
def Serving {α : Type} (ctx : Context) (full : Library) (x : Drafting α) : Prop :=
  ∀ d, Served ctx full d → Follows (StaysServed ctx full) x d fun _ _ => True

theorem Serving.bind {α β : Type} {x : Drafting α} {f : α → Drafting β}
    (hx : Serving ctx full x) (hf : ∀ a, Serving ctx full (f a)) : Serving ctx full (x >>= f) :=
  fun d hd => (hx d hd).bind fun a e hde _ => hf a e (hde hd)

theorem served_tells (hd : Served ctx full d) {e : Draft}
    (h : Tells ctx (d.store.library ctx.files) (fun _ => True) d e) : StaysServed ctx full d e := by
  intro _
  have he := h.warranted hd.warranted
  refine ⟨?_, ?_⟩ <;> rw [he.store.library]
  · exact hd.sub
  · exact he

theorem register_serving {name : String} {content : Json} (hcontent : full name = .ok content) :
    Serving ctx full
      (modify fun draft : Draft => { draft with store := draft.store.register name content }) := by
  intro d hd
  have hlookup : ∀ other, (d.store.register name content).library ctx.files other =
      if other = name then .ok content else d.store.library ctx.files other := by
    intro other
    unfold Store.library Store.register
    rw [List.lookup_cons]
    by_cases hother : other = name
    · simp [hother]
    · simp [hother, beq_eq_false_iff_ne.mpr hother]
  refine Follows.change (fun _ => ⟨fun other found hfound => ?_, ?_⟩) trivial
  · rw [hlookup] at hfound
    split at hfound
    · rename_i hother
      cases hfound
      rw [hother]
      exact hcontent
    · exact hd.sub other found hfound
  · refine hd.warranted.register fun other found hfound => ?_
    rw [hlookup]
    split
    · rename_i hother
      have hboth := hd.sub other found hfound
      rw [hother, hcontent] at hboth
      exact hboth
    · exact hfound

theorem generate_serving (place : Location) : Serving ctx full (generate ctx place) :=
  fun _ hd => (generate_tells hd.warranted trivial).along fun _ h => served_tells hd h

/-- Nothing is on record before the first step. -/
theorem served_empty
    (hfiles : ∀ name content, Store.fetch ctx.files name = .ok content → full name = .ok content) :
    Served ctx full {} := by
  refine ⟨hfiles, Store.truthful_of_empty ctx.files [], consistent_empty.nests,
    fun type htype => ?_⟩
  exact absurd htype (Nat.not_lt_zero _)

end Drafting

end SchemaBeans
