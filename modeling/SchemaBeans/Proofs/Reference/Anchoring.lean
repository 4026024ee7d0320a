import SchemaBeans.Proofs.Outcome
import SchemaBeans.Proofs.Reference.Names

/-! # References that move

Anchoring a value makes its references independent of the document: each one becomes the text of the
location that it points at. Values under the names of data keywords are left as they are, also where
such a name is one that a schema gives to a property. The text of a location is read with its
pointer decoded once more, so it leads back to the location only if that changes nothing. -/
namespace SchemaBeans

open Text

def Fault.NoPointer (fault : Fault) : Prop := ∃ reference, fault = .unresolved reference .notPointer

namespace Location

variable {base reference : String} {place : Location}

def HasPointer (place : Location) : Prop :=
  (place.pointer.isEmpty || place.pointer.toList.head? == some '/') = true

theorem ofReference_cut {document fragment : List Char}
    (h : cutFirst '#' reference.toList = some (document, fragment)) :
    ofReference base reference =
      let place : Location :=
        ⟨if document = [] then base else Document.resolve base (String.ofList document),
          Percent.decode (String.ofList fragment)⟩
      if place.pointer.isEmpty || place.pointer.toList.head? == some '/' then .ok place
      else .error (.unresolved reference .notPointer) := by
  cases document <;> simp [ofReference, h]

theorem ofReference_whole (h : '#' ∉ reference.toList) :
    ofReference base reference =
      .ok ⟨if reference.isEmpty then base else Document.resolve base reference, ""⟩ := by
  simp [ofReference, cutFirst_eq_none.mpr h]

theorem ofReference_error {fault : Fault} (h : ofReference base reference = .error fault) :
    fault = .unresolved reference .notPointer := by
  unfold ofReference at h
  dsimp only at h
  split at h <;> split at h <;> simp_all

theorem ofReference_absolute (hbase : Document.Hierarchical base)
    (h : ofReference base reference = .ok place) :
    Document.Absolute place.document.toList ∧ place.HasPointer := by
  cases hcut : cutFirst '#' reference.toList with
  | none =>
    have hwhole := cutFirst_eq_none.mp hcut
    rw [ofReference_whole hwhole, Except.ok.injEq] at h
    subst h
    refine ⟨?_, rfl⟩
    dsimp only
    split
    · exact hbase.toAbsolute
    · exact Document.resolve_absolute hbase hwhole
  | some cut =>
    obtain ⟨document, fragment⟩ := cut
    have hwhole := (cutFirst_eq_some.mp hcut).2
    rw [ofReference_cut hcut] at h
    dsimp only at h
    split at h
    · rename_i hpointer
      rw [Except.ok.injEq] at h
      subst h
      refine ⟨?_, hpointer⟩
      dsimp only
      split
      · exact hbase.toAbsolute
      · exact Document.resolve_absolute hbase (by simpa using hwhole)
    · cases h

/-- The text of a location leads back to it exactly if decoding its pointer once more changes
nothing. -/
theorem ofReference_text (hdocument : Document.Absolute place.document.toList)
    (hpointer : place.HasPointer) (base : String) :
    ofReference base place.text = .ok place ↔ Percent.decode place.pointer = place.pointer := by
  have hresolve := hdocument.resolve base
  have hne : place.document.toList ≠ [] := by
    obtain ⟨scheme, rest, hname, -⟩ := hdocument.schemed
    simp [hname]
  obtain ⟨document, pointer⟩ := place
  by_cases hempty : pointer = ""
  · subst hempty
    have htext : text ⟨document, ""⟩ = document := rfl
    rw [htext, ofReference_whole hdocument.whole, hresolve]
    have hdocument : document.isEmpty = false := by simpa using hne
    simp only [hdocument, Bool.false_eq_true, if_false, true_iff]
    rfl
  · have hsome : pointer.isEmpty = false := by simpa using hempty
    have htext : (text ⟨document, pointer⟩).toList = document.toList ++ '#' :: pointer.toList := by
      simp [text, hsome]
    have hcut : cutFirst '#' (text ⟨document, pointer⟩).toList =
        some (document.toList, pointer.toList) := by
      rw [htext]
      exact cutFirst_append hdocument.whole _
    rw [ofReference_cut hcut]
    simp only [hne, if_false, String.ofList_toList, hresolve]
    constructor
    · intro h
      split at h
      · exact congrArg Location.pointer (Except.ok.inj h)
      · cases h
    · intro h
      simp only [h]
      exact if_pos hpointer

end Location

namespace Json

variable {base : String} {v w x : Json} {segment : String} {fault : Fault}

theorem descend?_cons (v : Json) (segment : String) (rest : List String) :
    v.descend? (segment :: rest) = (v.step? segment).bind fun x => x.descend? rest := rfl

theorem anchorItems_get {items out : List Json} (h : anchorItems base items = .ok out) (i : Nat)
    (hx : items[i]? = some x) : ∃ y, anchor base x = .ok y ∧ out[i]? = some y := by
  induction items generalizing out i with
  | nil => simp at hx
  | cons item rest ih =>
    rw [anchorItems] at h
    obtain ⟨first, hfirst, h⟩ := ok_of_bind h
    obtain ⟨others, hothers, h⟩ := ok_of_bind h
    cases h
    cases i with
    | zero =>
      cases hx
      exact ⟨first, hfirst, rfl⟩
    | succ i => exact ih hothers i hx

/-- What anchoring makes of the value under a name. -/
inductive Anchored (base : String) (target : Option String) (name : String) (x : Json) : Json → Prop
  | data (h : name ∈ dataKeywords) : Anchored base target name x x
  | reference {text : String} (hdata : name ∉ dataKeywords) (hname : name = "$ref")
      (htarget : target = some text) : Anchored base target name x (.string text)
  | value {y : Json} (hdata : name ∉ dataKeywords) (hother : name = "$ref" → target = none)
      (hy : anchor base x = .ok y) : Anchored base target name x y

theorem anchorMembers_cons {target : Option String} {name : String} {rest out : Members}
    (h : anchorMembers base target ((name, x) :: rest) = .ok out) :
    ∃ y others, out = (name, y) :: others ∧ Anchored base target name x y ∧
      anchorMembers base target rest = .ok others := by
  have hparts : ∀ {value : Except Fault Json}, (do
      let y ← value
      pure ((name, y) :: (← anchorMembers base target rest))) = .ok out →
      ∃ y others, value = .ok y ∧ out = (name, y) :: others ∧
        anchorMembers base target rest = .ok others := by
    intro value h
    obtain ⟨y, hy, h⟩ := ok_of_bind h
    obtain ⟨others, hothers, h⟩ := ok_of_bind h
    cases h
    exact ⟨y, others, hy, rfl, hothers⟩
  unfold anchorMembers at h
  split at h
  · rename_i hdata
    obtain ⟨y, others, hy, rfl, hothers⟩ := hparts h
    cases hy
    exact ⟨x, others, rfl, .data (List.contains_iff_mem.mp hdata), hothers⟩
  · rename_i hdata
    have hdata : name ∉ dataKeywords := fun h => hdata (List.contains_iff_mem.mpr h)
    split at h
    · rename_i text hname
      obtain ⟨y, others, hy, rfl, hothers⟩ := hparts h
      cases hy
      exact ⟨_, others, rfl, .reference hdata (by simpa using hname) rfl, hothers⟩
    · rename_i hnot
      obtain ⟨y, others, hy, rfl, hothers⟩ := hparts h
      refine ⟨y, others, rfl, .value hdata (fun hname => ?_) hy, hothers⟩
      exact Option.eq_none_iff_forall_ne_some.mpr fun text htext =>
        hnot text htext (by simp [hname])

theorem anchorMembers_lookup {target : Option String} {members out : Members}
    (h : anchorMembers base target members = .ok out) (name : String) :
    (members.lookup name = none ∧ out.lookup name = none) ∨
      ∃ x y, members.lookup name = some x ∧ out.lookup name = some y ∧
        Anchored base target name x y := by
  induction members generalizing out with
  | nil =>
    rw [anchorMembers] at h
    cases h
    exact .inl ⟨rfl, rfl⟩
  | cons member rest ih =>
    obtain ⟨key, value⟩ := member
    obtain ⟨y, others, rfl, hy, hothers⟩ := anchorMembers_cons h
    rw [List.lookup_cons, List.lookup_cons]
    by_cases hkey : name = key
    · subst hkey
      exact .inr ⟨value, y, by simp, by simp, hy⟩
    · simpa [beq_eq_false_iff_ne.mpr hkey] using ih hothers

/-- The string under `$ref`, as the location that it points at. -/
def target? (base : String) (members : Members) : Except Fault (Option String) :=
  match members.lookup "$ref" with
  | some (.string reference) => do pure (some (← Location.ofReference base reference).text)
  | _ => .ok none

theorem anchor_object {members : Members} (h : (object members).anchor base = .ok w) :
    ∃ target out, target? base members = .ok target ∧
      anchorMembers base target members = .ok out ∧ w = object out := by
  rw [anchor] at h
  split at h
  · rename_i reference hreference
    obtain ⟨place, hplace, h⟩ := ok_of_bind h
    obtain ⟨out, hout, h⟩ := ok_of_bind h
    cases h
    refine ⟨some place.text, out, ?_, hout, rfl⟩
    rw [target?, hreference]
    dsimp only
    rw [hplace]
    rfl
  · rename_i hnot
    obtain ⟨out, hout, h⟩ := ok_of_bind h
    cases h
    refine ⟨none, out, ?_, hout, rfl⟩
    unfold target?
    split
    · rename_i reference hreference
      exact absurd hreference (hnot reference)
    · rfl

theorem anchor_array {items : List Json} (h : (array items).anchor base = .ok w) :
    ∃ out, anchorItems base items = .ok out ∧ w = array out := by
  rw [anchor] at h
  obtain ⟨out, hout, h⟩ := ok_of_bind h
  cases h
  exact ⟨out, hout, rfl⟩

theorem target?_of_value {members : Members} (hx : members.lookup "$ref" = some x)
    (hstring : ∀ reference, x ≠ .string reference) : target? base members = .ok none := by
  unfold target?
  split
  · rename_i reference hreference
    rw [hx] at hreference
    exact absurd (Option.some.inj hreference) (hstring reference)
  · rfl

mutual

theorem anchor_error : ∀ {v : Json}, anchor base v = .error fault → fault.NoPointer
  | .null, h | .bool _, h | .number _, h | .string _, h => by
    unfold anchor at h
    cases h
  | .array items, h => by
    unfold anchor at h
    rcases error_of_bind h with h | ⟨out, -, h⟩
    · exact anchorItems_error h
    · cases h
  | .object members, h => by
    unfold anchor at h
    split at h
    · rcases error_of_bind h with h | ⟨place, -, h⟩
      · exact ⟨_, Location.ofReference_error h⟩
      · rcases error_of_bind h with h | ⟨out, -, h⟩
        · exact anchorMembers_error h
        · cases h
    · rcases error_of_bind h with h | ⟨out, -, h⟩
      · exact anchorMembers_error h
      · cases h

theorem anchorItems_error : ∀ {items : List Json}, anchorItems base items = .error fault →
    fault.NoPointer
  | [], h => by cases h
  | item :: rest, h => by
    unfold anchorItems at h
    rcases error_of_bind h with h | ⟨first, -, h⟩
    · exact anchor_error h
    · rcases error_of_bind h with h | ⟨others, -, h⟩
      · exact anchorItems_error h
      · cases h

theorem anchorMembers_error {target : Option String} : ∀ {members : Members},
    anchorMembers base target members = .error fault → fault.NoPointer
  | [], h => by cases h
  | (name, value) :: rest, h => by
    have hrest : ∀ {x : Except Fault Json}, (do
        let value ← x
        pure ((name, value) :: (← anchorMembers base target rest))) = .error fault →
        x = .error fault ∨ fault.NoPointer := by
      intro x h
      rcases error_of_bind h with h | ⟨y, -, h⟩
      · exact .inl h
      · rcases error_of_bind h with h | ⟨others, -, h⟩
        · exact .inr (anchorMembers_error h)
        · cases h
    unfold anchorMembers at h
    split at h
    · exact (hrest h).resolve_left fun h => by cases h
    · split at h
      · exact (hrest h).resolve_left fun h => by cases h
      · exact (hrest h).elim anchor_error id

end

section Steps

variable (h : v.anchor base = .ok w)

include h

theorem step?_anchor_data (hdata : segment ∈ dataKeywords) : w.step? segment = v.step? segment := by
  cases v with
  | object members =>
    obtain ⟨target, out, -, hout, rfl⟩ := anchor_object h
    show out.lookup segment = members.lookup segment
    rcases anchorMembers_lookup hout segment with ⟨hnone, hnone'⟩ | ⟨x, y, hx, hy, hxy⟩
    · rw [hnone, hnone']
    · cases hxy with
      | data => rw [hx, hy]
      | reference hnot => exact absurd hdata hnot
      | value hnot => exact absurd hdata hnot
  | array items =>
    obtain ⟨out, -, rfl⟩ := anchor_array h
    have hindex : Pointer.index? segment = none := by
      simp only [dataKeywords, List.mem_cons, List.not_mem_nil, or_false] at hdata
      rcases hdata with rfl | rfl | rfl | rfl <;> decide
    simp [step?, hindex]
  | _ =>
    rw [anchor] at h
    · cases h
      rfl
    all_goals simp

theorem step?_anchor (hx : v.step? segment = some x) (hdata : segment ∉ dataKeywords)
    (hstring : ∀ reference, x ≠ .string reference) :
    ∃ y, x.anchor base = .ok y ∧ w.step? segment = some y := by
  cases v with
  | object members =>
    obtain ⟨target, out, htarget, hout, rfl⟩ := anchor_object h
    have hx : members.lookup segment = some x := hx
    rcases anchorMembers_lookup hout segment with ⟨hnone, -⟩ | ⟨x', y, hx', hy, hxy⟩
    · rw [hnone] at hx
      cases hx
    · rw [hx] at hx'
      cases hx'
      cases hxy with
      | data h => exact absurd h hdata
      | @reference text _ hname hsome =>
        subst hname
        rw [target?_of_value hx hstring, hsome] at htarget
        cases htarget
      | value _ _ hvalue => exact ⟨y, hvalue, hy⟩
  | array items =>
    obtain ⟨out, hout, rfl⟩ := anchor_array h
    obtain ⟨i, hi, hx⟩ := Option.bind_eq_some_iff.mp hx
    obtain ⟨y, hy, hget⟩ := anchorItems_get hout i hx
    exact ⟨y, hy, by simp [step?, hi, hget]⟩
  | _ => cases hx

theorem step?_anchor_reference {reference : String}
    (hx : v.step? "$ref" = some (.string reference)) :
    ∃ place, Location.ofReference base reference = .ok place ∧
      w.step? "$ref" = some (.string place.text) := by
  have hdata : "$ref" ∉ dataKeywords := by decide
  cases v with
  | object members =>
    obtain ⟨target, out, htarget, hout, rfl⟩ := anchor_object h
    have hx : members.lookup "$ref" = some (.string reference) := hx
    simp only [target?, hx] at htarget
    obtain ⟨place, hplace, htarget⟩ := ok_of_bind htarget
    cases htarget
    refine ⟨place, hplace, ?_⟩
    rcases anchorMembers_lookup hout "$ref" with ⟨hnone, -⟩ | ⟨x, y, -, hy, hxy⟩
    · rw [hnone] at hx
      cases hx
    · cases hxy with
      | data h => exact absurd h hdata
      | reference _ _ hsome =>
        cases hsome
        exact hy
      | value _ hnone => cases hnone rfl
  | array items =>
    have hindex : Pointer.index? "$ref" = none := by decide
    simp [step?, hindex] at hx
  | _ => cases hx

end Steps

theorem not_string_of_descend? {segments : List String} (hne : segments ≠ [])
    (h : x.descend? segments = some v) (reference : String) : x ≠ .string reference := by
  rintro rfl
  cases segments with
  | nil => exact hne rfl
  | cons segment rest => cases h

theorem descend?_anchor_data {path : List String} (h : v.anchor base = .ok w)
    (hx : v.descend? path = some x) (hdata : ∃ segment ∈ path, segment ∈ dataKeywords) :
    w.descend? path = some x := by
  induction path generalizing v w with
  | nil =>
    obtain ⟨_, hmem, -⟩ := hdata
    cases hmem
  | cons segment rest ih =>
    rw [descend?_cons] at hx ⊢
    by_cases hsegment : segment ∈ dataKeywords
    · rw [step?_anchor_data h hsegment]
      exact hx
    · obtain ⟨inner, hinner, hx⟩ := Option.bind_eq_some_iff.mp hx
      have hrest : ∃ segment ∈ rest, segment ∈ dataKeywords := by simpa [hsegment] using hdata
      have hne : rest ≠ [] := by
        rintro rfl
        simp at hrest
      obtain ⟨y, hy, hstep⟩ := step?_anchor h hinner hsegment (not_string_of_descend? hne hx)
      rw [hstep]
      exact ih hy hx hrest

theorem descend?_anchor_reference {path : List String} {reference : String}
    (h : v.anchor base = .ok w) (hx : v.descend? (path ++ ["$ref"]) = some (.string reference))
    (hdata : ∀ segment ∈ path, segment ∉ dataKeywords) :
    ∃ place, Location.ofReference base reference = .ok place ∧
      w.descend? (path ++ ["$ref"]) = some (.string place.text) := by
  induction path generalizing v w with
  | nil =>
    obtain ⟨inner, hinner, heq⟩ := Option.bind_eq_some_iff.mp hx
    cases heq
    obtain ⟨place, hplace, hstep⟩ := step?_anchor_reference h hinner
    exact ⟨place, hplace, by rw [List.nil_append, descend?_cons, hstep]; rfl⟩
  | cons segment rest ih =>
    rw [List.cons_append, descend?_cons] at hx ⊢
    obtain ⟨inner, hinner, hx⟩ := Option.bind_eq_some_iff.mp hx
    obtain ⟨y, hy, hstep⟩ := step?_anchor h hinner (hdata segment (by simp))
      (not_string_of_descend? (by simp) hx)
    rw [hstep]
    exact ih hy hx fun other hother => hdata other (List.mem_cons_of_mem _ hother)

/-- A reference on a way without the name of a data keyword becomes the text of what it points at,
and from every document that leads to the same place exactly if decoding the pointer once more
changes nothing. A reference on any other way stays as it is. -/
theorem anchor_references (hbase : Document.Hierarchical base) (h : v.anchor base = .ok w)
    {path : List String} {reference : String}
    (hx : v.descend? (path ++ ["$ref"]) = some (.string reference)) :
    ((∃ segment ∈ path, segment ∈ dataKeywords) →
      w.descend? (path ++ ["$ref"]) = some (.string reference)) ∧
    ((∀ segment ∈ path, segment ∉ dataKeywords) →
      ∃ place, Location.ofReference base reference = .ok place ∧
        w.descend? (path ++ ["$ref"]) = some (.string place.text) ∧
        ∀ other, Location.ofReference other place.text = Location.ofReference base reference ↔
          Percent.decode place.pointer = place.pointer) := by
  refine ⟨fun ⟨segment, hmem, hdata⟩ => ?_, fun hdata => ?_⟩
  · exact descend?_anchor_data h hx ⟨segment, List.mem_append_left _ hmem, hdata⟩
  · obtain ⟨place, hplace, hget⟩ := descend?_anchor_reference h hx hdata
    obtain ⟨hdocument, hpointer⟩ := Location.ofReference_absolute hbase hplace
    refine ⟨place, hplace, hget, fun other => ?_⟩
    rw [hplace]
    exact Location.ofReference_text hdocument hpointer other

private theorem base_hierarchical : Document.Hierarchical "mem://s/dir/base.json" where
  schemed := Document.hasScheme_iff.mp (by decide +kernel)
  normal := by decide +kernel
  whole := by decide +kernel
  path := ⟨"mem://s".toList, "dir/base.json".toList, by decide +kernel⟩

private def referring (name reference : String) : Json :=
  .object [("properties", .object [(name, .object [("$ref", .string reference)])])]

theorem anchor_references_property :
    Location.ofReference "mem://t/other.json" "mem://s/dir/x.json#/y" =
      Location.ofReference "mem://s/dir/base.json" "x.json#/y" := by
  have h : (referring "a" "x.json#/y").anchor "mem://s/dir/base.json" =
      .ok (referring "a" "mem://s/dir/x.json#/y") := by rfl
  have hx : (referring "a" "x.json#/y").descend? (["properties", "a"] ++ ["$ref"]) =
      some (.string "x.json#/y") := by rfl
  obtain ⟨place, hplace, hget, hsame⟩ := (anchor_references base_hierarchical h hx).2 (by decide)
  have hknown : Location.ofReference "mem://s/dir/base.json" "x.json#/y" =
      .ok ⟨"mem://s/dir/x.json", "/y"⟩ := by rfl
  obtain rfl := Except.ok.inj (hplace.symm.trans hknown)
  exact (hsame "mem://t/other.json").mpr (by decide +kernel)

/-- The way to a subschema: by a keyword that holds one, one that lists some, or one that has some
under names of their own. -/
inductive SchemaPath : List String → Prop
  | root : SchemaPath []
  | single {path : List String} {keyword : String} (h : SchemaPath path)
      (hkeyword : keyword ∈ ["items", "additionalProperties", "extends"]) :
      SchemaPath (path ++ [keyword])
  | listed {path : List String} {keyword : String} (h : SchemaPath path)
      (hkeyword : keyword ∈ ["items", "allOf", "oneOf", "anyOf"]) (index : Nat) :
      SchemaPath (path ++ [keyword, toString index])
  | named {path : List String} {keyword : String} (h : SchemaPath path)
      (hkeyword : keyword ∈ ["properties", "definitions"]) (name : String) :
      SchemaPath (path ++ [keyword, name])

/-- The schema of a property may keep a reference that leads elsewhere from another document. -/
theorem anchor_leaves_reference : ¬ ∀ (v w : Json) (base other : String) (path : List String)
    (reference : String), Document.Hierarchical base → SchemaPath path → v.anchor base = .ok w →
    v.descend? (path ++ ["$ref"]) = some (.string reference) →
      ∃ moved, w.descend? (path ++ ["$ref"]) = some (.string moved) ∧
        Location.ofReference other moved = Location.ofReference base reference := by
  intro h
  have hanchor : (referring "default" "#/x").anchor "mem://s/dir/base.json" =
      .ok (referring "default" "#/x") := by rfl
  obtain ⟨moved, hget, hsame⟩ := h _ _ "mem://s/dir/base.json" "mem://t/other.json"
    ["properties", "default"] "#/x" base_hierarchical (.named .root (by decide) "default") hanchor
    rfl
  cases hget
  exact absurd (congrArg Except.toOption hsame) (by decide +kernel)

end Json

end SchemaBeans
