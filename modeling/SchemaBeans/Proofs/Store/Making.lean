import SchemaBeans.Proofs.Store.Chains
import SchemaBeans.Proofs.Store.Nodes

/-! # What one look-up makes

A schema below another one that is met for the first time either gets a node of its own, or it is a
reference to a node that is known and becomes another location of that. -/
namespace SchemaBeans.Store

variable {files : FileSystem} {st u : Store} {place : Location} {content : Json} {id : NodeId}

/-- The second store has a node of its own for the place, and knows no other new location. -/
structure Makes (st : Store) (place : Location) (content : Json) (id : NodeId) (u : Store) :
    Prop where
  grows : st.Grows u
  has : u.Has id
  read : (u.node id).Read
  location : (u.node id).location = place
  content : (u.node id).content = content
  known : ∀ other, u.id? other ≠ none → other = place ∨ st.id? other ≠ none

theorem makes_add {node : SchemaNode} (hread : node.Read) (hfree : st.id? node.location = none) :
    Makes st node.location node.content ⟨st.nodes.size⟩ (st.add node).2 := by
  have hself := node_add_self st node
  refine ⟨grows_add node hfree, has_add.mpr (.inr rfl), ?_, ?_, ?_, fun other hother => ?_⟩
  · rw [hself]
    exact hread
  · rw [hself]
  · rw [hself]
  · by_cases hsame : other = node.location
    · exact .inl hsame
    · rw [id?_add, if_neg hsame] at hother
      exact .inr hother

/-- A value that is no reference. -/
def Plain (place : Location) (content : Json) : Prop :=
  ∀ k, keywordsOf place content = .ok k → k.reference = none

theorem materialize_makes (step : Location → Action NodeId) (parent : Option NodeId)
    (hplain : Plain place content) (hfree : st.id? place = none) :
    Ends (materialize step place parent content) st fun id t => Makes st place content id t := by
  unfold materialize
  refine Ends.bind (P := fun k t => t = st ∧ keywordsOf place content = .ok k)
    (Ends.lift keywordsOf_ends fun k hk => ⟨rfl, hk⟩) ?_
  rintro k _ ⟨rfl, hk⟩
  simp only [hplain k hk]
  cases hshape : Shape.classify k with
  | error name => exact Ends.throw (by simp)
  | ok shape =>
    intro r t hx
    cases hx
    refine ⟨by simp, fun a ha => ?_⟩
    cases ha
    have hread : SchemaNode.Read ⟨place, parent, content, k, shape⟩ := ⟨hk, hplain k hk, hshape⟩
    exact makes_add hread hfree

section Children

variable {parent : NodeId} {segments : List String}

theorem child_makes (files : FileSystem)
    (hfree : st.id? ((st.node parent).location.below segments) = none)
    (hcontent : (st.node parent).content.descend? segments = some content)
    (hplain : Plain ((st.node parent).location.below segments) content) :
    Ends (child files parent segments) st fun found t => found.byReference = false ∧
      Makes st ((st.node parent).location.below segments) content found.id t := by
  unfold child
  refine Ends.after (a := st) rfl (Ends.after (a := st) rfl ?_)
  simp only [hfree, hcontent]
  refine Ends.after (a := st) rfl ?_
  refine Ends.bind (materialize_makes _ (some parent) hplain hfree) fun id t hmakes => ?_
  refine Ends.after (a := t) rfl (Ends.pure ⟨?_, hmakes⟩)
  rw [hmakes.location]
  simp

theorem follow_known (files : FileSystem) (chain : List Location) (h : st.id? place = some id) :
    Repeats (follow files (st.reach files) chain place) st id := by
  obtain ⟨fuel, hfuel⟩ : ∃ fuel, st.reach files = fuel + 1 :=
    ⟨st.reach files - 1, by unfold reach; omega⟩
  rw [hfuel, follow]
  refine Repeats.bind (a := st) rfl ?_
  rw [h]
  exact Repeats.pure st id

theorem materialize_refers {step : Location → Action NodeId} {here : Location}
    {above : Option NodeId} {reference : String} (hstep : Repeats (step place) st id)
    (hreference : Location.ofReference here.document reference = .ok place) :
    (materialize step here above (.object [("$ref", .string reference)])).run st =
      (.ok id, st.bind here id) := by
  have hread : keywordsOf here (.object [("$ref", .string reference)]) =
      .ok { reference := some reference } := rfl
  unfold materialize
  refine (run_bind_ok (Repeats.lift hread)).trans ?_
  refine (run_bind_ok (Repeats.lift hreference)).trans ?_
  exact (run_bind_ok hstep).trans (run_bind_ok (run_change _ st))

theorem child_refers (files : FileSystem) {reference : String}
    (hfree : st.id? ((st.node parent).location.below segments) = none)
    (hcontent : (st.node parent).content.descend? segments =
      some (.object [("$ref", .string reference)]))
    (hreference : Location.ofReference (st.node parent).location.document reference = .ok place)
    (hid : st.id? place = some id)
    (hother : (st.node id).location ≠ (st.node parent).location.below segments) :
    Ends (child files parent segments) st fun found t => found = ⟨id, true⟩ ∧
      t = st.bind ((st.node parent).location.below segments) id := by
  unfold child
  refine Ends.after (a := st) rfl (Ends.after (a := st) rfl ?_)
  simp only [hfree, hcontent]
  refine Ends.after (a := st) rfl ?_
  refine Ends.bind (P := fun made t => made = id ∧
      t = st.bind ((st.node parent).location.below segments) id) ?_ ?_
  · have hhere : Location.ofReference ((st.node parent).location.below segments).document
        reference = .ok place := hreference
    intro r t hx
    rw [materialize_refers (follow_known files _ hid) hhere] at hx
    cases hx
    exact ⟨by simp, fun made hmade => by cases hmade; exact ⟨rfl, rfl⟩⟩
  · rintro _ _ ⟨rfl, rfl⟩
    refine Ends.after (a := st.bind _ _) rfl (Ends.pure ⟨?_, rfl⟩)
    exact congrArg _ (decide_eq_true hother)

end Children

theorem resolve_makes (files : FileSystem) {document : Json} (hfree : st.id? place = none)
    (hdocument : st.documents.lookup place.document = some document)
    (hcontent : document.lookup? place.pointer = some content) (hplain : Plain place content) :
    Ends (resolve files place) st fun id t => Makes st place content id t := by
  obtain ⟨fuel, hfuel⟩ : ∃ fuel, st.reach files = fuel + 1 :=
    ⟨st.reach files - 1, by unfold reach; omega⟩
  have hread : Repeats (Store.document files place.document) st document := by
    unfold Store.document
    refine Repeats.bind (a := st) rfl ?_
    rw [hdocument]
    exact Repeats.pure st document
  unfold resolve
  refine Ends.after (a := st) rfl ?_
  rw [hfuel, follow]
  refine Ends.after (a := st) rfl ?_
  rw [hfree]
  simp only [List.contains_nil, Bool.false_eq_true, if_false]
  refine Ends.after hread ?_
  simp only [hcontent]
  exact materialize_makes _ none hplain hfree

theorem synthesize_makes (files : FileSystem) (parent : NodeId) (hplain : Plain place content)
    (hfree : st.id? place = none) :
    Ends (synthesize files place parent content) st fun id t => Makes st place content id t := by
  unfold synthesize
  refine Ends.after (a := st) rfl ?_
  simp only [hfree]
  exact Ends.after (a := st) rfl (materialize_makes _ (some parent) hplain hfree)

end SchemaBeans.Store
