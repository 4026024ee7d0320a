import SchemaBeans.Proofs.Reference.Positions
import SchemaBeans.Proofs.Store.Files
import SchemaBeans.Proofs.Store.Nodes

/-! # Places and nodes

A node sits where its location says, in a document that the store knows by that name, and no two
nodes have one location. A place has several locations though, because a location is text. Nodes are
certain to sit at different places only if their pointers and documents are plainly spelled. -/
namespace SchemaBeans

theorem SchemaNode.Inside.below {known : List (String × Json)} {node below : SchemaNode}
    {segments : List String} (h : node.Inside known)
    (hlocation : below.location = node.location.below segments)
    (hcontent : node.content.descend? segments = some below.content) : below.Inside known := by
  obtain ⟨document, hdocument, hpart⟩ := h
  rw [Inside, hlocation]
  exact ⟨document, hdocument, (Json.lookup?_below hpart segments).trans hcontent⟩

namespace Store

open Relation

variable {st : Store}

/-- The call does not say itself where a schema is to stand. -/
def Call.Placed : Call → Prop
  | synthesize _ _ _ => False
  | _ => True

theorem Reaches.inside (h : Reaches (fun _ call => call.Placed) {} st) :
    ∀ id, st.Has id → (st.node id).Inside st.documents := by
  refine h.nodes (p := fun t node => node.Inside t.documents) ?_ fun _ _ _ hsub => .mono hsub
  intro files call t w hplaced hclear hknown ih
  refine Call.adds (fun _ _ h => h) files t call hclear ?_ ?_
  · rintro parent segments rfl hsub content keywords shape hcontent -
    exact ((ih parent hknown).mono hsub).below rfl hcontent
  · rintro place parent content rfl
    exact hplaced.elim

/-- Every node sits at a position in a document that the store knows. Two nodes of one document
are at the same position exactly if the plain spellings of their pointers are the same, so they
are not if the pointers are plainly spelled. Two documents whose names are plain are not read
from one file. -/
theorem nodes_apart (h : Reaches (fun _ call => call.Placed) {} st) :
    (∀ id, st.Has id → ∃ document steps,
      ((st.node id).location.document, document) ∈ st.documents ∧
        document.Sits (st.node id).location.pointer steps (st.node id).content) ∧
    ∀ a b, st.Has a → st.Has b → a ≠ b →
      ((st.node a).location.document = (st.node b).location.document →
        ∀ (v w : Json) steps rest x y, v.Sits (st.node a).location.pointer steps x →
          w.Sits (st.node b).location.pointer rest y →
            (v = w → (steps = rest ↔ Pointer.plain steps = Pointer.plain rest)) ∧
            ((st.node a).location.pointer = Pointer.plain steps →
              (st.node b).location.pointer = Pointer.plain rest → steps ≠ rest)) ∧
      ((st.node a).location.document ≠ (st.node b).location.document →
        Document.Plain (st.node a).location.document →
        Document.Plain (st.node b).location.document →
          ∀ files v w, fetch files (st.node a).location.document = .ok v →
            fetch files (st.node b).location.document = .ok w →
              files.locate (Document.filePath (st.node a).location.document) ≠
                files.locate (Document.filePath (st.node b).location.document)) := by
  refine ⟨fun id hid => ?_, fun a b ha hb hne => ⟨fun hdocument => ?_, fun hdocument => ?_⟩⟩
  · obtain ⟨document, hdocument, hcontent⟩ := h.inside id hid
    obtain ⟨steps, hsits⟩ := Json.lookup?_iff.mp hcontent
    exact ⟨document, steps, hdocument, hsits⟩
  · intro v w steps rest x y hv hw
    refine ⟨fun hvw => ?_, fun hplain kplain heq => hne ?_⟩
    · subst hvw
      exact hv.position_iff hw
    · refine (h.sound (sound_of_empty rfl rfl)).unique ha hb ?_
      have hpointer : (st.node a).location.pointer = (st.node b).location.pointer := by
        rw [hplain, kplain, heq]
      cases hplace : (st.node a).location
      cases kplace : (st.node b).location
      simp_all
  · intro hplain kplain files v w hv hw
    exact fetch_apart hplain kplain hv hw hdocument

-- Parts of a list, looked up by their numbers, with and without an idle zero.
private def itemFiles : FileSystem := ⟨[], []⟩

private def itemDocument : Json :=
  .object [("items", .array [.object [("type", .string "object")], .object []])]

private def itemKnown : Store := ({} : Store).register "mem:///a.json" itemDocument

private def itemLook (pointer : String) (st : Store) : Store :=
  ((Call.resolve ⟨"mem:///a.json", pointer⟩).action itemFiles |>.run st).2

private def itemStore (first second : String) : Store := itemLook second (itemLook first itemKnown)

private theorem item_reaches (first second : String) :
    Reaches (fun _ call => call.Placed) {} (itemStore first second) := by
  have hknown : Calls (fun _ call => call.Placed) {} itemKnown :=
    @Calls.of_run _ itemFiles {} (.register "mem:///a.json" itemDocument) trivial trivial
  have hlook : ∀ pointer st, Calls (fun _ call => call.Placed) st (itemLook pointer st) :=
    fun pointer st => Calls.of_run (.resolve ⟨"mem:///a.json", pointer⟩) trivial trivial
  exact ((ReflTransGen.single hknown).tail (hlook _ _)).tail (hlook _ _)

private theorem item_keeps (pointer : String) (st : Store) :
    st.documents ⊆ (itemLook pointer st).documents := by
  let call := Call.resolve ⟨"mem:///a.json", pointer⟩
  have hadds : Follows (Adds [] fun _ => True) (call.action itemFiles) st fun _ _ => True :=
    Call.adds (fun _ _ _ => trivial) itemFiles st call (by simp [call])
      (fun _ _ _ _ _ _ _ _ _ => trivial) fun _ _ _ _ _ _ _ => trivial
  rcases hrun : (call.action itemFiles).run st with ⟨r, t⟩
  rw [itemLook, hrun]
  exact (hadds r t hrun (call.ends itemFiles st r t hrun).1).1.documents

private theorem item_known (first second : String) :
    ("mem:///a.json", itemDocument) ∈ (itemStore first second).documents :=
  item_keeps _ _ (item_keeps _ _ (List.mem_cons_self ..))

private theorem item_sits {pointer segment : String} {index : Nat} {item : Json}
    (hsegments : Pointer.segments? pointer = some ["items", segment])
    (hindex : Pointer.index? segment = some index)
    (hitem : [Json.object [("type", .string "object")], .object []][index]? = some item) :
    itemDocument.Sits pointer [.member "items", .item index] item :=
  ⟨_, hsegments, .member rfl (.item hindex hitem .here)⟩

theorem nodes_apart_items : ∃ first second x y,
    ((itemStore "/items/0" "/items/1").node ⟨0⟩).location.pointer = Pointer.plain first ∧
    ((itemStore "/items/0" "/items/1").node ⟨1⟩).location.pointer = Pointer.plain second ∧
      itemDocument.Sits (Pointer.plain first) first x ∧
      itemDocument.Sits (Pointer.plain second) second y ∧ first ≠ second := by
  have ha : (itemStore "/items/0" "/items/1").Has ⟨0⟩ := by
    unfold Has
    decide +kernel
  have hb : (itemStore "/items/0" "/items/1").Has ⟨1⟩ := by
    unfold Has
    decide +kernel
  have hfirst : ((itemStore "/items/0" "/items/1").node ⟨0⟩).location =
      ⟨"mem:///a.json", Pointer.plain [.member "items", .item 0]⟩ := by decide +kernel
  have hsecond : ((itemStore "/items/0" "/items/1").node ⟨1⟩).location =
      ⟨"mem:///a.json", Pointer.plain [.member "items", .item 1]⟩ := by decide +kernel
  have hitem := @item_sits (Pointer.plain [.member "items", .item 0]) "0" 0 _
    (by decide +kernel) (by decide +kernel) rfl
  have hother := @item_sits (Pointer.plain [.member "items", .item 1]) "1" 1 _
    (by decide +kernel) (by decide +kernel) rfl
  have hapart := ((nodes_apart (item_reaches "/items/0" "/items/1")).2 ⟨0⟩ ⟨1⟩ ha hb (by decide)).1
  rw [hfirst, hsecond] at hapart
  refine ⟨_, _, _, _, by rw [hfirst], by rw [hsecond], hitem, hother, ?_⟩
  exact (hapart rfl _ _ _ _ _ _ hitem hother).2 rfl rfl

/-- An idle zero makes a second node of one place. -/
theorem index_spelled_twice : ∃ (st : Store) (a b : NodeId) (v : Json) (steps : List Json.Step)
    (x : Json), Reaches (fun _ call => call.Placed) {} st ∧ st.Has a ∧ st.Has b ∧ a ≠ b ∧
      (st.node a).location.document = (st.node b).location.document ∧
      ((st.node a).location.document, v) ∈ st.documents ∧
      v.Sits (st.node a).location.pointer steps x ∧
      v.Sits (st.node b).location.pointer steps x := by
  have hfirst : ((itemStore "/items/0" "/items/00").node ⟨0⟩).location =
      ⟨"mem:///a.json", "/items/0"⟩ := by decide +kernel
  have hsecond : ((itemStore "/items/0" "/items/00").node ⟨1⟩).location =
      ⟨"mem:///a.json", "/items/00"⟩ := by decide +kernel
  refine ⟨itemStore "/items/0" "/items/00", ⟨0⟩, ⟨1⟩, itemDocument, [.member "items", .item 0],
    .object [("type", .string "object")], item_reaches _ _, ?_, ?_, by decide, ?_, ?_, ?_, ?_⟩
  · unfold Has
    decide +kernel
  · unfold Has
    decide +kernel
  · rw [hfirst, hsecond]
  · rw [hfirst]
    exact item_known _ _
  · rw [hfirst]
    exact @item_sits "/items/0" "0" 0 _ (by decide +kernel) (by decide +kernel) rfl
  · rw [hsecond]
    exact @item_sits "/items/00" "00" 0 _ (by decide +kernel) (by decide +kernel) rfl

end Store

end SchemaBeans
