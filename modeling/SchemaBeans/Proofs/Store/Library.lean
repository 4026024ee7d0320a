import Mathlib.Logic.Relation
import SchemaBeans.Proofs.Outcome
import SchemaBeans.Proofs.Reference.Anchoring
import SchemaBeans.Proofs.Reference.Pointers
import SchemaBeans.Store

/-! # Where references lead

What a location holds depends on the documents only, and so does the chain of references that starts
there. A chain has one way to go: it comes to a schema, it breaks off at a location that is neither
schema nor reference, or it comes back to a location that it has passed. -/
namespace SchemaBeans

open Relation

abbrev Library := String → Except Fault Json

/-- The documents that a store knows, and for other names the files. -/
def Store.library (files : FileSystem) (st : Store) : Library := fun name =>
  match st.documents.lookup name with
  | some content => .ok content
  | none => Store.fetch files name

namespace Library

section Definitions

variable (lib : Library)

/-- The value that stands at a location. -/
inductive Contains : Location → Json → Prop
  | intro {place : Location} {document content : Json}
      (hdocument : lib place.document = .ok document)
      (hcontent : document.lookup? place.pointer = some content) : Contains place content

/-- An object that reads as keywords has a reference to another location. -/
inductive Refers : Location → Location → Prop
  | intro {place target : Location} {members : Json.Members} {keywords : Keywords}
      {reference : String} (hcontent : Contains lib place (.object members))
      (hread : Keywords.ofJson (.object members) = .ok keywords)
      (href : keywords.reference = some reference)
      (htarget : Location.ofReference place.document reference = .ok target) : Refers place target

def Circles (place : Location) : Prop :=
  ∃ again, ReflTransGen lib.Refers place again ∧ TransGen lib.Refers again again

/-- The location holds a schema that is no reference. -/
inductive HasSchema : Location → Prop
  | anything {place : Location} (hcontent : Contains lib place (.bool true)) : HasSchema place
  | keywords {place : Location} {members : Json.Members} {keywords : Keywords} {shape : Shape}
      (hcontent : Contains lib place (.object members))
      (hread : Keywords.ofJson (.object members) = .ok keywords)
      (hplain : keywords.reference = none) (hshape : Shape.classify keywords = .ok shape) :
      HasSchema place

/-- Nothing that could be a schema can be found: there is no such document or no such part of it, it
has a reference whose fragment is no pointer, or it is neither an object nor a truth value. -/
inductive Unresolvable : Location → Prop
  | document {place : Location} {fault : Fault} (h : lib place.document = .error fault) :
      Unresolvable place
  | pointer {place : Location} {document : Json} (hdocument : lib place.document = .ok document)
      (h : document.lookup? place.pointer = none) : Unresolvable place
  | fragment {place : Location} {members : Json.Members} {keywords : Keywords}
      {reference : String} {fault : Fault} (hcontent : Contains lib place (.object members))
      (hread : Keywords.ofJson (.object members) = .ok keywords)
      (href : keywords.reference = some reference)
      (h : Location.ofReference place.document reference = .error fault) : Unresolvable place
  | value {place : Location} {content : Json} (hcontent : Contains lib place content)
      (hobject : ∀ members, content ≠ .object members) (hbool : ∀ b, content ≠ .bool b) :
      Unresolvable place

/-- What stands at a location: another location that it refers to, or none if it is a schema. -/
def look (place : Location) : Except Fault (Option Location) := do
  let document ← lib place.document
  match document.lookup? place.pointer with
  | none => .error (.unresolved place.text .missingPointer)
  | some content =>
    let keywords ← Store.keywordsOf place content
    match keywords.reference with
    | some reference => (Location.ofReference place.document reference).map some
    | none =>
      match Shape.classify keywords with
      | .ok _ => .ok none
      | .error name => .error (.unsupported place (.unknownType name))

/-- Why no schema is found at the end of a chain. -/
inductive Fails (place : Location) : Fault → Prop
  | circles {again : Location} (hagain : ReflTransGen lib.Refers place again)
      (hback : TransGen lib.Refers again again) : Fails place (.unresolved again.text .circular)
  | breaks {last : Location} {fault : Fault} (hlast : ReflTransGen lib.Refers place last)
      (h : lib.look last = .error fault) : Fails place fault

end Definitions

variable {lib : Library} {place target last other : Location} {content : Json}
  {keywords : Keywords} {reference : String} {fault : Fault}

theorem contains_unique {part : Json} (h : lib.Contains place content)
    (k : lib.Contains place part) : content = part := by
  obtain ⟨hdocument, hcontent⟩ := h
  obtain ⟨kdocument, kpart⟩ := k
  obtain rfl := Except.ok.inj (hdocument.symm.trans kdocument)
  exact Option.some.inj (hcontent.symm.trans kpart)

theorem Contains.below {part : Json} (h : lib.Contains place content) (segments : List String)
    (hpart : content.descend? segments = some part) : lib.Contains (place.below segments) part := by
  obtain ⟨hdocument, hcontent⟩ := h
  exact ⟨hdocument, (Json.lookup?_below hcontent segments).trans hpart⟩

theorem contains_above {segments : List String} {part : Json}
    (h : lib.Contains (place.below segments) part) :
    ∃ content, lib.Contains place content ∧ content.descend? segments = some part := by
  obtain ⟨hdocument, hpart⟩ := h
  obtain ⟨all, hall, hdescend⟩ := Option.bind_eq_some_iff.mp hpart
  obtain ⟨above, habove, rfl⟩ := Pointer.segments?_of_pushAll segments hall
  rw [Json.descend?, List.foldlM_append] at hdescend
  obtain ⟨content, hcontent, hrest⟩ := Option.bind_eq_some_iff.mp hdescend
  refine ⟨content, ⟨hdocument, ?_⟩, hrest⟩
  rw [Json.lookup?, habove]
  exact hcontent

theorem keywordsOf_object (place : Location) {members : Json.Members}
    (h : Keywords.ofJson (.object members) = .ok keywords) :
    Store.keywordsOf place (.object members) = .ok keywords := by
  simp only [Store.keywordsOf, h]

theorem keywordsOf_cases (h : Store.keywordsOf place content = .ok keywords) :
    content = .bool true ∧ keywords = {} ∨ ∃ members, content = .object members ∧
      Keywords.ofJson (.object members) = .ok keywords := by
  unfold Store.keywordsOf at h
  split at h
  · rename_i members
    split at h
    · rename_i hread
      cases h
      exact .inr ⟨members, rfl, hread⟩
    · cases h
  · cases h
    exact .inl ⟨rfl, rfl⟩
  · cases h
  · cases h

theorem keywordsOf_anywhere {content : Json} {keywords : Keywords}
    (h : Store.keywordsOf place content = .ok keywords) (other : Location) :
    Store.keywordsOf other content = .ok keywords := by
  rcases keywordsOf_cases h with ⟨rfl, rfl⟩ | ⟨members, rfl, hread⟩
  · rfl
  · exact keywordsOf_object other hread

theorem look_of_contains (h : lib.Contains place content) :
    lib.look place = (do
      let keywords ← Store.keywordsOf place content
      match keywords.reference with
      | some reference => (Location.ofReference place.document reference).map some
      | none =>
        match Shape.classify keywords with
        | .ok _ => .ok none
        | .error name => .error (.unsupported place (.unknownType name))) := by
  obtain ⟨hdocument, hcontent⟩ := h
  simp only [look, hdocument, bind, Except.bind, hcontent]

theorem look_of_missing {document : Json} (hdocument : lib place.document = .ok document)
    (h : document.lookup? place.pointer = none) :
    lib.look place = .error (.unresolved place.text .missingPointer) := by
  simp only [look, hdocument, bind, Except.bind, h]

theorem contains_of_look {found : Option Location} (h : lib.look place = .ok found) :
    ∃ content keywords, lib.Contains place content ∧
      Store.keywordsOf place content = .ok keywords := by
  obtain ⟨document, hdocument, h⟩ := ok_of_bind h
  split at h
  · cases h
  · rename_i content hcontent
    obtain ⟨keywords, hkeywords, -⟩ := ok_of_bind h
    exact ⟨content, keywords, ⟨hdocument, hcontent⟩, hkeywords⟩

theorem look_of_keywords (h : lib.Contains place content)
    (hread : Store.keywordsOf place content = .ok keywords) :
    lib.look place = match keywords.reference with
      | some reference => (Location.ofReference place.document reference).map some
      | none =>
        match Shape.classify keywords with
        | .ok _ => .ok none
        | .error name => .error (.unsupported place (.unknownType name)) := by
  rw [look_of_contains h, hread]
  rfl

theorem refers_iff : lib.Refers place target ↔ lib.look place = .ok (some target) := by
  constructor
  · rintro ⟨hcontent, hread, href, htarget⟩
    simp only [look_of_keywords hcontent (keywordsOf_object place hread), href, htarget, Except.map]
  · intro h
    obtain ⟨content, keywords, hcontent, hkeywords⟩ := contains_of_look h
    rw [look_of_keywords hcontent hkeywords] at h
    split at h
    · rename_i reference href
      rcases keywordsOf_cases hkeywords with ⟨-, rfl⟩ | ⟨members, rfl, hread⟩
      · cases href
      · cases htarget : Location.ofReference place.document reference with
        | error fault => simp [htarget, Except.map] at h
        | ok found =>
          simp only [htarget, Except.map, Except.ok.injEq, Option.some.injEq] at h
          exact .intro hcontent hread href (h ▸ htarget)
    · split at h <;> cases h

theorem hasSchema_iff : lib.HasSchema place ↔ lib.look place = .ok none := by
  constructor
  · rintro (hcontent | ⟨hcontent, hread, hplain, hshape⟩)
    · exact look_of_keywords hcontent rfl
    · simp only [look_of_keywords hcontent (keywordsOf_object place hread), hplain, hshape]
  · intro h
    obtain ⟨content, keywords, hcontent, hkeywords⟩ := contains_of_look h
    rw [look_of_keywords hcontent hkeywords] at h
    split at h
    · rename_i reference href
      cases htarget : Location.ofReference place.document reference <;>
        simp [htarget, Except.map] at h
    · rename_i hplain
      split at h
      · rename_i shape hshape
        rcases keywordsOf_cases hkeywords with ⟨rfl, -⟩ | ⟨members, rfl, hread⟩
        · exact .anything hcontent
        · exact .keywords hcontent hread hplain hshape
      · cases h

theorem keywordsOf_unresolved {subject : String} {reason : Unresolved} :
    Store.keywordsOf place content = .error (.unresolved subject reason) →
      (∀ members, content ≠ .object members) ∧ ∀ b, content ≠ .bool b := by
  intro h
  unfold Store.keywordsOf at h
  split at h
  · split at h <;> simp at h
  · simp at h
  · simp at h
  · rename_i hobject htrue hfalse
    exact ⟨hobject, fun b hb => by cases b <;> simp_all⟩

theorem keywordsOf_value (place : Location) (hobject : ∀ members, content ≠ .object members)
    (hbool : ∀ b, content ≠ .bool b) :
    Store.keywordsOf place content = .error (.unresolved place.text .notSchema) := by
  cases content with
  | object members => exact absurd rfl (hobject members)
  | bool b => exact absurd rfl (hbool b)
  | _ => rfl

/-- The documents are missing or cannot be read if they are not there. -/
def Plain (lib : Library) : Prop :=
  ∀ name fault, lib name = .error fault → ∃ subject reason, fault = .unresolved subject reason

theorem unresolvable_iff (hlib : lib.Plain) : lib.Unresolvable place ↔
    ∃ subject reason, lib.look place = .error (.unresolved subject reason) := by
  constructor
  · intro h
    cases h with
    | document h =>
      obtain ⟨subject, reason, rfl⟩ := hlib _ _ h
      exact ⟨subject, reason, by simp only [look, h]; rfl⟩
    | pointer hdocument h =>
      exact ⟨place.text, .missingPointer, look_of_missing hdocument h⟩
    | @fragment members keywords reference fault hcontent hread href h =>
      refine ⟨reference, .notPointer, ?_⟩
      rw [look_of_keywords hcontent (keywordsOf_object place hread), href]
      simp only [h, Location.ofReference_error h]
      rfl
    | value hcontent hobject hbool =>
      refine ⟨place.text, .notSchema, ?_⟩
      rw [look_of_contains hcontent, keywordsOf_value place hobject hbool]
      rfl
  · rintro ⟨subject, reason, hlook⟩
    rcases error_of_bind hlook with h | ⟨document, hdocument, hvalue⟩
    · exact .document h
    · split at hvalue
      · rename_i hnone
        exact .pointer hdocument hnone
      · rename_i content hcontent
        have hcontains : lib.Contains place content := ⟨hdocument, hcontent⟩
        rcases error_of_bind hvalue with h | ⟨keywords, hkeywords, hfound⟩
        · obtain ⟨hobject, hbool⟩ := keywordsOf_unresolved h
          exact .value hcontains hobject hbool
        · split at hfound
          · rename_i reference href
            rcases keywordsOf_cases hkeywords with ⟨-, rfl⟩ | ⟨members, rfl, hread⟩
            · cases href
            · cases htarget : Location.ofReference place.document reference with
              | error fault => exact .fragment hcontains hread href htarget
              | ok target =>
                rw [htarget] at hfound
                cases hfound
          · split at hfound <;> simp at hfound

theorem refers_unique : Relator.RightUnique lib.Refers := by
  intro place target other h k
  have htarget := (refers_iff.mp h).symm.trans (refers_iff.mp k)
  exact Option.some.inj (Except.ok.inj htarget)

def Final (lib : Library) (place : Location) : Prop := ∀ target, ¬ lib.Refers place target

theorem HasSchema.final (h : lib.HasSchema place) : lib.Final place := by
  intro target k
  rw [refers_iff, hasSchema_iff.mp h] at k
  cases k

theorem final_of_error (h : lib.look place = .error fault) : lib.Final place := by
  intro target k
  rw [refers_iff, h] at k
  cases k

theorem Final.of_chain (h : lib.Final last) (hlast : ReflTransGen lib.Refers place last)
    (htarget : ReflTransGen lib.Refers place target) : ReflTransGen lib.Refers target last := by
  rcases ReflTransGen.total_of_right_unique refers_unique hlast htarget with k | k
  · rcases ReflTransGen.cases_head k with rfl | ⟨next, hnext, -⟩
    · exact .refl
    · exact absurd hnext (h next)
  · exact k

theorem Final.unique (h : lib.Final last) (k : lib.Final other)
    (hlast : ReflTransGen lib.Refers place last) (hother : ReflTransGen lib.Refers place other) :
    last = other := by
  rcases ReflTransGen.cases_head (h.of_chain hlast hother) with heq | ⟨next, hnext, -⟩
  · exact heq.symm
  · exact absurd hnext (k next)

theorem Final.not_circles (h : lib.Final last) (hlast : ReflTransGen lib.Refers place last) :
    ¬ lib.Circles place := by
  rintro ⟨again, hagain, hback⟩
  have hround : ∀ {a b}, ReflTransGen lib.Refers a b → TransGen lib.Refers a a →
      TransGen lib.Refers b b := by
    intro a b hab
    induction hab with
    | refl => exact id
    | tail _ hstep ih =>
      intro haa
      obtain ⟨next, hnext, hrest⟩ := TransGen.head'_iff.mp (ih haa)
      rw [refers_unique hnext hstep] at hrest
      exact TransGen.tail' hrest hstep
  obtain ⟨next, hnext, -⟩ := TransGen.head'_iff.mp (hround (h.of_chain hlast hagain) hback)
  exact h next hnext

theorem Fails.of_refers (h : lib.Refers place target) (k : lib.Fails target fault) :
    lib.Fails place fault := by
  cases k with
  | circles hagain hback => exact .circles (.head h hagain) hback
  | breaks hlast hbreak => exact .breaks (.head h hlast) hbreak

theorem Fails.not_schema (h : lib.Fails place fault)
    (hlast : ReflTransGen lib.Refers place last) : ¬ lib.HasSchema last := by
  intro hschema
  cases h with
  | circles hagain hback => exact hschema.final.not_circles hlast ⟨_, hagain, hback⟩
  | breaks hother hbreak =>
    obtain rfl := hschema.final.unique (final_of_error hbreak) hlast hother
    rw [hasSchema_iff, hbreak] at hschema
    cases hschema

def Sub (lib more : Library) : Prop :=
  ∀ name content, lib name = .ok content → more name = .ok content

variable {more : Library}

theorem Contains.mono (hsub : lib.Sub more) (h : lib.Contains place content) :
    more.Contains place content :=
  let ⟨hdocument, hcontent⟩ := h
  ⟨hsub _ _ hdocument, hcontent⟩

theorem Refers.mono (hsub : lib.Sub more) (h : lib.Refers place target) :
    more.Refers place target :=
  let ⟨hcontent, hread, href, htarget⟩ := h
  ⟨hcontent.mono hsub, hread, href, htarget⟩

theorem HasSchema.mono (hsub : lib.Sub more) (h : lib.HasSchema place) : more.HasSchema place := by
  cases h with
  | anything hcontent => exact .anything (hcontent.mono hsub)
  | keywords hcontent hread hplain hshape =>
    exact .keywords (hcontent.mono hsub) hread hplain hshape

end Library

end SchemaBeans
