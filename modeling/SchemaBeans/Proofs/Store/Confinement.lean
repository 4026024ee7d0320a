import Mathlib.Data.Finset.Lattice.Fold
import SchemaBeans.Proofs.Reference.Pointers
import SchemaBeans.Proofs.Store.Chains

/-! # Where the schemas of a merge stand

In a run whose documents have no `#` in their names, every schema stands at one of finitely many
locations, or inside the `allOf` of a larger schema, or is the merge of another one. Looking up the
members of an `allOf` and putting their merge into the store keep it so. -/
namespace SchemaBeans

namespace Location

variable {a b : Location}

theorem below_member_inj {i j : Nat}
    (h : a.below ["allOf", toString i] = b.below ["allOf", toString j]) : a = b := by
  obtain ⟨hdocument, hpointer⟩ := Location.mk.inj h
  have hinner := (Pointer.push_inj hpointer).1
  have hsame := (Pointer.push_inj hinner).1
  cases a
  cases b
  simp_all

theorem below_allOf_ne {i : Nat} : a.below ["allOf"] ≠ b.below ["allOf", toString i] := by
  intro h
  obtain ⟨-, hpointer⟩ := Location.mk.inj h
  have hlast := (Pointer.push_inj hpointer).2
  have hmem : 'a' ∈ Pointer.escape (toString i).toList := by
    rw [← hlast]
    decide
  have hdigit := Pointer.escape_plain (by decide) hmem
  rw [Nat.toString_eq_repr, Nat.repr_eq_ofList_toDigits, String.toList_ofList] at hdigit
  exact absurd (Nat.isDigit_of_mem_toDigits (by decide) (by decide) hdigit) (by decide)

end Location

namespace Store

variable {files : FileSystem} {st u : Store} {n : Nat} {id : NodeId}

/-- How a schema came to its location: by a reference that spells the location, as a member of a
larger schema, or as the merge of one. -/
inductive Origin (n : Nat) (st : Store) (node : SchemaNode) : Prop
  | spelled (h : node.location.pointer.length ≤ n)
  | member {parent : NodeId} {index : Nat} (hparent : st.Has parent)
      (hplace : node.location = (st.node parent).location.below ["allOf", toString index])
      (hsize : node.content.size < (st.node parent).content.size)
  | merge {parent : NodeId} (hparent : st.Has parent)
      (hplace : node.location = (st.node parent).location.below ["allOf"])

/-- What holds of every schema. -/
structure Stands (n : Nat) (st : Store) (node : SchemaNode) : Prop where
  whole : '#' ∉ node.location.document.toList
  known : node.location.document.length ≤ n
  short : node.content.Short n
  origin : Origin n st node

structure Confined (n : Nat) (files : FileSystem) (st : Store) : Prop extends
    Bounded n files st where
  schemas : ∀ id, st.Has id → Stands n st (st.node id)
  aliases : ∀ place id, st.id? place = some id →
    (st.node id).location = place ∨ (st.node id).location.pointer.length ≤ n

theorem Stands.keeps {node : SchemaNode} (h : Stands n st node)
    (hhas : ∀ id, st.Has id → u.Has id) (hnode : ∀ id, st.Has id → u.node id = st.node id) :
    Stands n u node := by
  refine ⟨h.whole, h.known, h.short, ?_⟩
  cases h.origin with
  | spelled h => exact .spelled h
  | member hparent hplace hsize =>
    rw [← hnode _ hparent] at hplace hsize
    exact .member (hhas _ hparent) hplace hsize
  | merge hparent hplace =>
    rw [← hnode _ hparent] at hplace
    exact .merge (hhas _ hparent) hplace

/-- A member is a smaller schema than the one it is a member of, unless its location is spelled. -/
theorem Confined.found (h : Confined n files st) (hs : st.Sound) {parent : NodeId}
    (hp : st.Has parent) {index : Nat} {found : Child}
    (hfound : st.Found parent ["allOf", toString index] found) :
    (st.node found.id).location.pointer.length ≤ n ∨
      (st.node found.id).content.size < (st.node parent).content.size := by
  rcases h.aliases _ _ hfound.known with hplace | hspelled
  · cases (h.schemas _ (hfound.has hs)).origin with
    | spelled hspelled => exact .inl hspelled
    | @member other _ hother hown hsize =>
      have hsame : (st.node other).location = (st.node parent).location :=
        Location.below_member_inj (hown.symm.trans hplace)
      have hids : other = parent := by
        have := hs.own hother
        rw [hsame, hs.own hp] at this
        exact (Option.some.inj this).symm
      exact .inr (hids ▸ hsize)
    | merge _ hown => exact absurd (hown.symm.trans hplace) Location.below_allOf_ne
  · exact .inl hspelled

theorem Confined.register (h : Confined n files st) {name : String} {content : Json}
    (hname : name.length ≤ n) (hstrings : ∀ s, content.Holds s → s.length ≤ n) :
    Confined n files (st.register name content) where
  names := h.names
  texts := h.texts
  documents := List.forall_mem_cons.mpr ⟨⟨hname, hstrings⟩, h.documents⟩
  schemas id hid := (h.schemas id hid).keeps (fun _ h => h) fun _ _ => rfl
  aliases := h.aliases

theorem Confined.bind (h : Confined n files st) (place : Location)
    (hid : (st.node id).location.pointer.length ≤ n) : Confined n files (st.bind place id) where
  names := h.names
  texts := h.texts
  documents := h.documents
  schemas other hother := (h.schemas other hother).keeps (fun _ h => h) fun _ _ => rfl
  aliases other i hi := by
    rw [id?_bind] at hi
    split at hi
    · cases hi
      exact .inr hid
    · exact h.aliases other i hi

theorem Confined.add (h : Confined n files st) (hs : st.Sound) {node : SchemaNode}
    (hnode : Stands n st node) : Confined n files (st.add node).2 where
  names := h.names
  texts := h.texts
  documents := h.documents
  schemas i hi := by
    have hkeeps : ∀ {other}, Stands n st other → Stands n (st.add node).2 other :=
      fun hother => hother.keeps (fun _ h => has_add.mpr (.inl h)) fun _ h => node_add_of_has node h
    rcases has_add.mp hi with hold | rfl
    · rw [node_add_of_has node hold]
      exact hkeeps (h.schemas i hold)
    · rw [node_add_self]
      exact hkeeps hnode
  aliases place i hi := by
    rw [id?_add] at hi
    split at hi
    · rename_i hplace
      cases hi
      rw [node_add_self]
      exact .inl hplace.symm
    · rw [node_add_of_has node (hs.bound hi)]
      exact h.aliases place i hi

theorem document_confined (h : Confined n files st) (hs : st.Sound) (name : String) :
    Yields (document files name) st fun content t => (Confined n files t ∧ t.Sound) ∧
      name.length ≤ n ∧ ∀ s, content.Holds s → s.length ≤ n := by
  unfold document
  refine Follows.after (a := st) rfl ?_
  cases hfound : st.documents.lookup name with
  | some content => exact Follows.pure ⟨⟨h, hs⟩, h.documents _ (Json.mem_of_lookup hfound)⟩
  | none =>
    refine Follows.lift_bind fun content hcontent => ?_
    obtain ⟨hname, hstrings⟩ := fetch_bounded hcontent
    have hname := Nat.le_trans hname h.names
    have hstrings : ∀ s, content.Holds s → s.length ≤ n :=
      fun s hs => Nat.le_trans (hstrings s hs) h.texts
    refine Follows.change_bind trivial
      (Follows.pure ⟨⟨h.register hname hstrings, ?_⟩, hname, hstrings⟩)
    exact (grows_register st name content).sound hs

theorem materialize_confined {step : Location → Action NodeId} {place : Location}
    {parent : Option NodeId} {content : Json} (h : Confined n files st) (hs : st.Sound)
    (hstands : ∀ keywords shape, Stands n st ⟨place, parent, content, keywords, shape⟩)
    (hstep : ∀ target, '#' ∉ target.document.toList → target.pointer.length ≤ n →
      Yields (step target) st fun id t =>
        Confined n files t ∧ (t.node id).location.pointer.length ≤ n) :
    Yields (materialize step place parent content) st fun id t => Confined n files t ∧
      ((t.node id).location = place ∨ (t.node id).location.pointer.length ≤ n) := by
  unfold materialize
  refine Follows.lift_bind fun keywords hkeywords => ?_
  cases href : keywords.reference with
  | some reference =>
    refine Follows.lift_bind fun target htarget => ?_
    have hstands := hstands keywords default
    have hpointer : target.pointer.length ≤ n :=
      Nat.le_trans (Location.ofReference_pointer htarget)
        (hstands.short _ (keywordsOf_reference hkeywords href))
    refine (hstep target (Location.ofReference_whole_document hstands.whole htarget)
      hpointer).bind fun id t _ ⟨ht, hid⟩ => ?_
    exact Follows.change_bind trivial (Follows.pure ⟨ht.bind place hid, .inr hid⟩)
  | none =>
    simp only
    cases Shape.classify keywords with
    | error name => exact Follows.throw
    | ok shape =>
      intro r t hx _
      cases hx
      refine ⟨trivial, fun a ha => ?_⟩
      cases ha
      exact ⟨h.add hs (hstands _ _), .inl (congrArg SchemaNode.location (node_add_self st _))⟩

theorem follow_confined : ∀ (fuel : Nat) (chain : List Location) (place : Location) (st : Store),
    Confined n files st → st.Sound → '#' ∉ place.document.toList → place.pointer.length ≤ n →
      Yields (follow files fuel chain place) st fun id t =>
        Confined n files t ∧ (t.node id).location.pointer.length ≤ n := by
  intro fuel
  induction fuel with
  | zero => exact fun _ _ _ _ _ _ _ => Follows.throw
  | succ fuel ih =>
    intro chain place st h hs hwhole hpointer
    have hplace : ∀ {t : Store} {id : NodeId}, (t.node id).location = place ∨
        (t.node id).location.pointer.length ≤ n → (t.node id).location.pointer.length ≤ n := by
      rintro t id (hplace | hid)
      · rw [hplace]
        exact hpointer
      · exact hid
    unfold follow
    refine Follows.after (a := st) rfl ?_
    cases hid : st.id? place with
    | some id => exact Follows.pure ⟨h, hplace (h.aliases _ _ hid)⟩
    | none =>
      simp only
      split
      · exact Follows.throw
      · refine (document_confined h hs _).bind fun content t _ ⟨⟨ht, hst⟩, hknown, hstrings⟩ => ?_
        cases hpart : content.lookup? place.pointer with
        | none => exact Follows.throw
        | some part =>
          have hshort : part.Short n := fun s hs =>
            Nat.le_trans (Location.fragment_length_le s) (hstrings s (hs.of_lookup? hpart))
          refine (materialize_confined ht hst
            (fun _ _ => ⟨hwhole, hknown, hshort, .spelled hpointer⟩)
            fun target hwhole hpointer => ih _ target t ht hst hwhole hpointer).imp
              fun id u _ ⟨hu, hid⟩ => ⟨hu, hplace hid⟩

theorem make_confined (h : Confined n files st) (hs : st.Sound) {parent : NodeId}
    (hp : st.Has parent) {segments : List String} {content : Json} (hshort : content.Short n)
    (horigin : ∀ keywords shape, Origin n st ⟨(st.node parent).location.below segments, some parent,
      content, keywords, shape⟩) (fuel : Nat) (chain : List Location) :
    Yields (materialize (follow files fuel chain) ((st.node parent).location.below segments)
      (some parent) content) st fun _ t => Confined n files t := by
  have hstands : ∀ keywords shape, Stands n st ⟨(st.node parent).location.below segments,
      some parent, content, keywords, shape⟩ := fun keywords shape =>
    ⟨(h.schemas _ hp).whole, (h.schemas _ hp).known, hshort, horigin keywords shape⟩
  refine (materialize_confined h hs hstands fun target hwhole hpointer => ?_).imp fun _ _ _ h => h.1
  exact follow_confined fuel chain target st h hs hwhole hpointer

theorem child_confined (h : Confined n files st) (hs : st.Sound) {parent : NodeId}
    (hp : st.Has parent) (index : Nat) :
    Yields (child files parent ["allOf", toString index]) st fun _ t => Confined n files t := by
  unfold child
  refine Follows.after (a := st) rfl (Follows.after (a := st) rfl ?_)
  simp only
  cases st.id? ((st.node parent).location.below ["allOf", toString index]) with
  | some id => exact Follows.after (a := id) rfl (Follows.after (a := st) rfl (Follows.pure h))
  | none =>
    simp only
    cases hcontent : (st.node parent).content.descend? ["allOf", toString index] with
    | none => exact Follows.throw_bind
    | some content =>
      have hshort : content.Short n :=
        fun s hs => (h.schemas _ hp).short s (hs.of_descend? hcontent)
      have hsize := Json.size_descend?_lt (by simp) hcontent
      refine Follows.after (a := st) rfl ?_
      exact (make_confined h hs hp hshort (fun _ _ => .member hp rfl hsize) (st.reach files)
        [(st.node parent).location.below ["allOf", toString index]]).bind
          fun id t _ ht => Follows.after (a := t) rfl (Follows.pure ht)

theorem synthesize_confined (h : Confined n files st) (hs : st.Sound) {parent : NodeId}
    (hp : st.Has parent) {content : Json} (hshort : content.Short n) :
    Yields (synthesize files ((st.node parent).location.below ["allOf"]) parent content) st
      fun _ t => Confined n files t := by
  unfold synthesize
  refine Follows.after (a := st) rfl ?_
  cases st.id? ((st.node parent).location.below ["allOf"]) with
  | some id => exact Follows.pure h
  | none =>
    refine Follows.after (a := st) rfl ?_
    exact make_confined h hs hp hshort (fun _ _ => .merge hp rfl) _ _

theorem exists_confined (files : FileSystem) (hs : st.Sound)
    (hwhole : ∀ id, st.Has id → '#' ∉ (st.node id).location.document.toList) :
    ∃ n, Confined n files st := by
  obtain ⟨most, hmost⟩ : ∃ most, ∀ id, st.Has id →
      (st.node id).location.document.length ≤ most ∧
        (st.node id).location.pointer.length ≤ most ∧ (st.node id).content.longest ≤ most := by
    let size (i : Nat) : Nat := (st.node ⟨i⟩).location.document.length +
      ((st.node ⟨i⟩).location.pointer.length + (st.node ⟨i⟩).content.longest)
    refine ⟨(Finset.range st.nodes.size).sup size, fun id hid => ?_⟩
    have hle : size id.index ≤ (Finset.range st.nodes.size).sup size :=
      Finset.le_sup (Finset.mem_range.mpr hid)
    have hsize : size id.index = (st.node id).location.document.length +
      ((st.node id).location.pointer.length + (st.node id).content.longest) := rfl
    omega
  have hlongest := bounded_longest files st
  have hmax := Nat.le_max_right (st.longest files) most
  have hbound := Nat.le_max_left (st.longest files) most
  refine ⟨max (st.longest files) most, ⟨⟨Nat.le_trans hlongest.names hbound,
    Nat.le_trans hlongest.texts hbound, fun document hdocument => ?_⟩, fun id hid => ?_,
    fun place id hid => .inr (Nat.le_trans (hmost id (hs.bound hid)).2.1 hmax)⟩⟩
  · obtain ⟨hname, hstrings⟩ := hlongest.documents document hdocument
    exact ⟨Nat.le_trans hname hbound, fun s hs => Nat.le_trans (hstrings s hs) hbound⟩
  · obtain ⟨hdocument, hpointer, hcontent⟩ := hmost id hid
    refine ⟨hwhole id hid, Nat.le_trans hdocument hmax, fun s hs => ?_,
      .spelled (Nat.le_trans hpointer hmax)⟩
    exact Nat.le_trans (Location.fragment_length_le s)
      (Nat.le_trans hs.length_le (Nat.le_trans hcontent hmax))

end Store

end SchemaBeans
