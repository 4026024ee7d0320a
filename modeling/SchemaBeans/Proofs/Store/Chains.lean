import Mathlib.Data.Finset.Card
import Mathlib.Data.Nat.Pairing
import SchemaBeans.Proofs.Json.Reading
import SchemaBeans.Proofs.Reference.Fragments
import SchemaBeans.Proofs.Store.Lookup

/-! # Chains of references

A chain of references passes no location twice, and all but the first two of its locations spell a
known document and the pointer of a reference that stands in one. There are only so many of these,
and `Store.reach` counts at least as many, so looking a schema up always comes to an end. -/
namespace SchemaBeans

namespace Text

/-- A text as a number, with a digit for each character. -/
def numeral : List Char → Nat
  | [] => 0
  | c :: rest => c.toNat + 1 + 0x200000 * numeral rest

theorem char_lt (c : Char) : c.toNat < 0x110000 := by
  have hvalid : c.toNat < 0xD800 ∨ 0xDFFF < c.toNat ∧ c.toNat < 0x110000 := c.valid
  omega

theorem numeral_injective : ∀ {a b : List Char}, numeral a = numeral b → a = b
  | [], [], _ => rfl
  | [], _ :: _, h | _ :: _, [], h => by
    simp only [numeral] at h
    omega
  | c :: a, d :: b, h => by
    have hc := char_lt c
    have hd := char_lt d
    simp only [numeral] at h
    have hrest : numeral a = numeral b := by omega
    have hfirst : c.toNat = d.toNat := by omega
    rw [numeral_injective hrest, Char.toNat_inj.mp hfirst]

theorem numeral_lt (text : List Char) : numeral text < Nat.pow 2 (21 * text.length) := by
  induction text with
  | nil => decide
  | cons c rest ih =>
    have hc := char_lt c
    change numeral rest < 2 ^ (21 * rest.length) at ih
    change numeral (c :: rest) < 2 ^ (21 * (rest.length + 1))
    rw [numeral, Nat.mul_succ, Nat.pow_add, Nat.mul_comm (2 ^ _)]
    omega

end Text

namespace Location

/-- A location as a number. -/
def code (place : Location) : Nat :=
  Nat.pair (Text.numeral place.document.toList) (Text.numeral place.pointer.toList)

theorem code_injective {a b : Location} (h : a.code = b.code) : a = b := by
  obtain ⟨hdocument, hpointer⟩ := Nat.pair_eq_pair.mp h
  have hd := String.toList_inj.mp (Text.numeral_injective hdocument)
  have hp := String.toList_inj.mp (Text.numeral_injective hpointer)
  cases a
  cases b
  simp_all

/-- Document and pointer have at most so many characters. -/
structure Spelled (n : Nat) (place : Location) : Prop where
  document : place.document.length ≤ n
  pointer : place.pointer.length ≤ n

theorem Spelled.code_lt {n : Nat} {place : Location} (h : place.Spelled n) :
    place.code < Store.spellings n := by
  have hpart : ∀ {text : String}, text.length ≤ n → Text.numeral text.toList < 2 ^ (21 * n) := by
    intro text htext
    refine Nat.lt_of_lt_of_le (Text.numeral_lt _) (Nat.pow_le_pow_right (by omega) ?_)
    rw [String.length_toList]
    omega
  refine Nat.lt_of_lt_of_le (Nat.pair_lt_max_add_one_sq _ _) ?_
  have hmax := Nat.max_lt.mpr ⟨hpart h.document, hpart h.pointer⟩
  have hsquare : Store.spellings n = (2 ^ (21 * n)) ^ 2 := by
    change 2 ^ (42 * n) = _
    rw [← Nat.pow_mul]
    congr 1
    omega
  rw [hsquare]
  exact Nat.pow_le_pow_left hmax 2

/-- How many locations of a length are left besides those in the list. -/
def unseen (n : Nat) (chain : List Location) : Nat :=
  (Finset.range (Store.spellings n) \ (chain.map code).toFinset).card

theorem unseen_le (n : Nat) (chain : List Location) : unseen n chain ≤ Store.spellings n := by
  refine Nat.le_trans (Finset.card_le_card Finset.sdiff_subset) ?_
  rw [Finset.card_range]

theorem unseen_cons_le (n : Nat) (place : Location) (chain : List Location) :
    unseen n (place :: chain) ≤ unseen n chain := by
  refine Finset.card_le_card (Finset.sdiff_subset_sdiff (Finset.Subset.refl _) ?_)
  simp only [List.map_cons, List.toFinset_cons]
  exact Finset.subset_insert _ _

theorem Spelled.unseen_lt {n : Nat} {place : Location} {chain : List Location}
    (h : place.Spelled n) (hnew : place ∉ chain) : unseen n (place :: chain) < unseen n chain := by
  have hcode : place.code ∉ (chain.map code).toFinset := by
    simp only [List.mem_toFinset, List.mem_map]
    rintro ⟨other, hother, heq⟩
    exact hnew (code_injective heq ▸ hother)
  refine Finset.card_lt_card (Finset.ssubset_iff.mpr ⟨place.code, by simp, ?_⟩)
  intro x hx
  rcases Finset.mem_insert.mp hx with rfl | hx
  · exact Finset.mem_sdiff.mpr ⟨Finset.mem_range.mpr h.code_lt, hcode⟩
  · simp only [List.map_cons, List.toFinset_cons, Finset.mem_sdiff, Finset.mem_insert] at hx ⊢
    exact ⟨hx.1, fun h => hx.2 (.inr h)⟩

end Location

namespace Keywords

theorem field_keeps {α β : Type} {decoder : Decoder α} {set : Keywords → Option α → Keywords}
    {part : Keywords → β} (hset : ∀ k x, part (set k x) = part k) {k k' : Keywords} {v : Json}
    (h : field decoder set k v = .ok k') : part k' = part k := by
  unfold field at h
  cases hread : Decoder.optional decoder v with
  | error fault => simp [hread, Except.map] at h
  | ok x =>
    simp only [hread, Except.map, Except.ok.injEq] at h
    rw [← h, hset]

theorem entry_reference : ∀ entry ∈ entries, entry.name = "$ref" ∧
      entry.read = field .string (fun k v => { k with reference := v }) ∨
    ∀ k v k', entry.read k v = .ok k' → k'.reference = k.reference := by
  have hkeeps : ∀ {α : Type} {decoder : Decoder α} {set : Keywords → Option α → Keywords},
      (∀ k x, (set k x).reference = k.reference) →
      ∀ k v k', field decoder set k v = .ok k' → k'.reference = k.reference :=
    fun hset _ _ _ h => field_keeps hset h
  unfold entries
  refine List.forall_mem_cons.mpr ⟨.inl ⟨rfl, rfl⟩, ?_⟩
  repeat' refine List.forall_mem_cons.mpr ⟨?_, ?_⟩
  all_goals
    first
    | exact .inr (hkeeps fun _ _ => rfl)
    | exact .inr fun _ _ _ h => by cases h; rfl
    | exact List.forall_mem_nil _

theorem ofMembers_reference {reference : String} : ∀ {members : Json.Members} {k k' : Keywords},
    ofMembers k members = .ok k' → k'.reference = some reference →
      k.reference = some reference ∨ Json.Holds reference (.object members)
  | [], k, k', h, href => by
    cases h
    exact .inl href
  | (name, value) :: rest, k, k', h, href => by
    have hrest : ∀ {k : Keywords}, ofMembers k rest = .ok k' → k.reference = some reference ∨
        Json.Holds reference (.object ((name, value) :: rest)) := fun h =>
      (ofMembers_reference h href).imp_right fun hs => by
        obtain ⟨m, hm, hs⟩ := Json.holds_object.mp hs
        exact .member (List.mem_cons_of_mem _ hm) hs
    unfold ofMembers at h
    split at h
    · exact hrest h
    · rename_i entry hentry
      split at h
      · rename_i next hread
        rcases hrest h with hnext | hs
        · rcases entry_reference entry (List.mem_of_find?_eq_some hentry) with ⟨-, hfield⟩ | hkeeps
          · rw [hfield] at hread
            cases value with
            | string s =>
              cases hread
              cases hnext
              exact .inr (.member (List.mem_cons_self) .string)
            | null =>
              cases hread
              cases hnext
            | _ => cases hread
          · exact .inl ((hkeeps _ _ _ hread).symm.trans hnext)
        · exact .inr hs
      · cases h

end Keywords

namespace Store

variable {files : FileSystem} {st : Store} {n : Nat} {name : String}

theorem length_le_byteLength (text : String) : text.length ≤ FileSystem.byteLength text := by
  have hencode : ∀ cs : List Char, cs.length ≤ (Text.encode cs).length := by
    intro cs
    induction cs with
    | nil => exact Nat.le_refl _
    | cons c rest ih =>
      obtain ⟨b, tail, h, -⟩ := Text.octets_head c
      rw [Text.encode, List.flatMap_cons, h, List.length_append, List.length_cons, List.length_cons]
      unfold Text.encode at ih
      omega
  have h := hencode text.toList
  rwa [String.length_toList] at h

def lengthSofar (total : Nat) (found : List String × Entry) : Nat :=
  match found.2 with
  | .file text => total + text.length
  | .directory => total

theorem text_le_characters {place : List String} {text : String}
    (h : (place, Entry.file text) ∈ files.entries) : text.length ≤ files.characters := by
  have hfold : ∀ (entries : List (List String × Entry)) (total : Nat),
      total ≤ entries.foldl lengthSofar total ∧ ((place, Entry.file text) ∈ entries →
        text.length ≤ entries.foldl lengthSofar total) := by
    intro entries
    induction entries with
    | nil => simp
    | cons entry rest ih =>
      intro total
      rw [List.foldl_cons]
      obtain ⟨htotal, hrest⟩ := ih (lengthSofar total entry)
      refine ⟨Nat.le_trans ?_ htotal, fun hmem => ?_⟩
      · unfold lengthSofar
        split <;> omega
      · rcases List.mem_cons.mp hmem with rfl | hmem
        · exact Nat.le_trans (Nat.le_add_left _ _) htotal
        · exact hrest hmem
  exact (hfold files.entries 0).2 h

theorem keywordsOf_reference {place : Location} {content : Json} {keywords : Keywords}
    {reference : String} (h : keywordsOf place content = .ok keywords)
    (href : keywords.reference = some reference) : content.Holds reference := by
  unfold keywordsOf at h
  split at h
  · split at h
    · rename_i hread
      cases h
      exact (Keywords.ofMembers_reference hread href).resolve_left fun h => by cases h
    · cases h
  · cases h
    cases href
  · cases h
  · cases h

/-- Names of documents and strings in them have at most so many characters. -/
structure Bounded (n : Nat) (files : FileSystem) (st : Store) : Prop where
  names : nameLimit ≤ n
  texts : files.characters ≤ n
  documents : ∀ document ∈ st.documents, document.1.length ≤ n ∧
    ∀ s, document.2.Holds s → s.length ≤ n

theorem bounded_longest (files : FileSystem) (st : Store) :
    Bounded (st.longest files) files st := by
  have hfold : ∀ (documents : List (String × Json)) (most : Nat),
      let all := documents.foldl
        (fun most document => max most (max document.1.length document.2.longest)) most
      most ≤ all ∧ ∀ document ∈ documents, max document.1.length document.2.longest ≤ all := by
    intro documents
    induction documents with
    | nil => simp
    | cons document rest ih =>
      intro most
      obtain ⟨hmost, hrest⟩ := ih (max most (max document.1.length document.2.longest))
      refine ⟨Nat.le_trans (Nat.le_max_left _ _) hmost, List.forall_mem_cons.mpr ⟨?_, hrest⟩⟩
      exact Nat.le_trans (Nat.le_max_right _ _) hmost
  obtain ⟨hmost, hdocuments⟩ := hfold st.documents (max nameLimit files.characters)
  refine ⟨Nat.le_trans (Nat.le_max_left _ _) hmost, Nat.le_trans (Nat.le_max_right _ _) hmost,
    fun document hdocument => ?_⟩
  have hle := hdocuments document hdocument
  exact ⟨Nat.le_trans (Nat.le_max_left _ _) hle, fun s hs =>
    Nat.le_trans hs.length_le (Nat.le_trans (Nat.le_max_right _ _) hle)⟩

theorem read_bounded {path text : String} (h : files.read path = .ok text) :
    path.length ≤ FileSystem.pathLimit ∧ text.length ≤ files.characters := by
  unfold FileSystem.read at h
  obtain ⟨place, hplace, h⟩ := ok_of_bind h
  split at h
  · cases h
  · cases h
  · rename_i found hentry
    cases h
    constructor
    · unfold FileSystem.locate at hplace
      split at hplace
      · cases hplace
      · split at hplace
        · cases hplace
        · split at hplace
          · cases hplace
          · rename_i hlong
            exact Nat.le_trans (length_le_byteLength path) (Nat.le_of_not_lt hlong)
    · unfold FileSystem.entry? at hentry
      split at hentry
      · cases hentry
      · exact text_le_characters (Json.mem_of_lookup hentry)

theorem fetch_bounded {content : Json} (h : fetch files name = .ok content) :
    name.length ≤ nameLimit ∧ ∀ s, content.Holds s → s.length ≤ files.characters := by
  unfold fetch at h
  dsimp only at h
  split at h
  · rename_i hscheme
    split at h
    · cases h
    · rename_i text hread
      split at h
      · rename_i hcontent
        cases h
        obtain ⟨hpath, htext⟩ := read_bounded hread
        refine ⟨?_, fun s hs => Nat.le_trans (Json.ofText?_length hcontent hs) htext⟩
        have hlength := Percent.length_le_decode
          (String.ofList (name.toList.drop "file://".length))
        rw [String.length_ofList, List.length_drop, String.length_toList] at hlength
        have hseven : "file://".length = 7 := by decide
        unfold nameLimit
        omega
      · cases h
  · cases h

theorem fetch_ends : fetch files name ≠ .error .endless := by
  unfold fetch
  dsimp only
  split
  · split
    · simp
    · split <;> simp
  · simp

theorem document_ends (h : Bounded n files st) : Ends (document files name) st fun content t =>
    Bounded n files t ∧ name.length ≤ n ∧ ∀ s, content.Holds s → s.length ≤ n := by
  unfold document
  refine Ends.after (a := st) rfl ?_
  cases hfound : st.documents.lookup name with
  | some content => exact Ends.pure ⟨h, h.documents _ (Json.mem_of_lookup hfound)⟩
  | none =>
    refine Ends.bind (P := fun content t => t = st ∧ fetch files name = .ok content)
      (Ends.lift fetch_ends fun content hcontent => ⟨rfl, hcontent⟩) ?_
    rintro content _ ⟨rfl, hcontent⟩
    obtain ⟨hname, hstrings⟩ := fetch_bounded hcontent
    have hnew : name.length ≤ n ∧ ∀ s, content.Holds s → s.length ≤ n :=
      ⟨Nat.le_trans hname h.names, fun s hs => Nat.le_trans (hstrings s hs) h.texts⟩
    refine Ends.bind (P := fun _ t => Bounded n files t) (Ends.change ?_) fun _ t ht =>
      Ends.pure ⟨ht, hnew⟩
    exact ⟨h.names, h.texts, List.forall_mem_cons.mpr ⟨hnew, h.documents⟩⟩

theorem keywordsOf_ends {place : Location} {content : Json} :
    keywordsOf place content ≠ .error .endless := by
  unfold keywordsOf
  split
  · split <;> simp
  all_goals simp

theorem ofReference_ends {base reference : String} :
    Location.ofReference base reference ≠ .error .endless := by
  intro h
  cases Location.ofReference_error h

theorem pointer_le {base reference : String} {target : Location} (href : reference.length ≤ n)
    (h : Location.ofReference base reference = .ok target) : target.pointer.length ≤ n :=
  Nat.le_trans (Location.ofReference_pointer h)
    (Nat.le_trans (Location.fragment_length_le reference) href)

/-- A node is made if the references of the content lead somewhere. -/
theorem materialize_ends {step : Location → Action NodeId} {place : Location} {content : Json}
    (hstep : ∀ reference target, content.Holds reference →
      Location.ofReference place.document reference = .ok target →
        Ends (step target) st fun _ _ => True)
    (parent : Option NodeId) : Ends (materialize step place parent content) st fun _ _ => True := by
  unfold materialize
  refine Ends.bind (P := fun keywords t => t = st ∧ keywordsOf place content = .ok keywords)
    (Ends.lift keywordsOf_ends fun _ h => ⟨rfl, h⟩) ?_
  rintro keywords _ ⟨rfl, hkeywords⟩
  cases href : keywords.reference with
  | some reference =>
    refine Ends.bind (P := fun target u => u = _ ∧ _ = Except.ok target)
      (Ends.lift ofReference_ends fun _ h => ⟨rfl, h⟩) ?_
    rintro target _ ⟨rfl, htarget⟩
    refine (hstep reference target (keywordsOf_reference hkeywords href) htarget).bind
      fun _ _ _ => Ends.bind (P := fun _ _ => True) (Ends.change trivial)
        fun _ _ _ => Ends.pure trivial
  | none =>
    simp only
    cases Shape.classify keywords with
    | error name => exact Ends.throw (by simp)
    | ok shape =>
      intro r t hx
      cases hx
      exact ⟨by simp, fun _ _ => trivial⟩

/-- One step of a chain, if the chain that goes on from a known document ends. -/
theorem follow_step {fuel : Nat} {chain : List Location} {place : Location}
    (hst : Bounded n files st)
    (hstep : ∀ target t, Bounded n files t → place.document.length ≤ n → place ∉ chain →
      target.pointer.length ≤ n →
        Ends (follow files fuel (place :: chain) target) t fun _ _ => True) :
    Ends (follow files (fuel + 1) chain place) st fun _ _ => True := by
  unfold follow
  refine Ends.after (a := st) rfl ?_
  cases st.id? place with
  | some id => exact Ends.pure trivial
  | none =>
    simp only
    by_cases hchain : place ∈ chain
    · simp only [List.contains_iff_mem, hchain, if_true]
      exact Ends.throw (by simp)
    · simp only [List.contains_iff_mem, hchain, if_false]
      refine (document_ends hst).bind fun content t ⟨ht, hdocument, hstrings⟩ => ?_
      cases hpart : content.lookup? place.pointer with
      | none => exact Ends.throw (by simp)
      | some part =>
        refine materialize_ends (fun reference target href htarget => ?_) none
        exact hstep target t ht hdocument hchain
          (pointer_le (hstrings _ (href.of_lookup? hpart)) htarget)

theorem follow_ends : ∀ (fuel : Nat) (chain : List Location) (place : Location) (st : Store),
    Bounded n files st → place.pointer.length ≤ n → Location.unseen n chain < fuel →
      Ends (follow files fuel chain place) st fun _ _ => True := by
  intro fuel
  induction fuel with
  | zero => exact fun _ _ _ _ _ h => absurd h (Nat.not_lt_zero _)
  | succ fuel ih =>
    intro chain place st hst hpointer hfuel
    refine follow_step hst fun target t ht hdocument hnew htarget => ?_
    have hless := Location.Spelled.unseen_lt ⟨hdocument, hpointer⟩ hnew
    exact ih (place :: chain) target t ht htarget (by omega)

theorem follow_reach (files : FileSystem) (st : Store) (chain : List Location) (place : Location) :
    Ends (follow files (st.reach files) chain place) st fun _ _ => True := by
  refine follow_step (bounded_longest files st) fun target t ht _ _ htarget => ?_
  exact follow_ends _ _ target t ht htarget (Nat.lt_succ_of_le (Location.unseen_le _ _))

theorem resolve_ends (files : FileSystem) (st : Store) (place : Location) :
    Ends (resolve files place) st fun _ _ => True := by
  unfold resolve
  exact Ends.after (a := st) rfl (follow_reach files st [] place)

theorem child_ends (files : FileSystem) (st : Store) (parent : NodeId) (segments : List String) :
    Ends (child files parent segments) st fun _ _ => True := by
  unfold child
  refine Ends.after (a := st) rfl (Ends.after (a := st) rfl ?_)
  simp only
  cases st.id? ((st.node parent).location.below segments) with
  | some id => exact Ends.pure trivial
  | none =>
    simp only
    cases (st.node parent).content.descend? segments with
    | none => exact Ends.throw_bind (by simp)
    | some content =>
      refine Ends.after (a := st) rfl ?_
      refine Ends.bind (materialize_ends (fun _ target _ _ => follow_reach files st _ target) _)
        fun id t _ => Ends.after (a := t) rfl (Ends.pure trivial)

theorem synthesize_ends (files : FileSystem) (st : Store) (place : Location) (parent : NodeId)
    (content : Json) : Ends (synthesize files place parent content) st fun _ _ => True := by
  unfold synthesize
  refine Ends.after (a := st) rfl ?_
  cases st.id? place with
  | some id => exact Ends.pure trivial
  | none =>
    refine Ends.after (a := st) rfl ?_
    exact materialize_ends (fun _ target _ _ => follow_reach files st _ target) _

end Store

end SchemaBeans
