import SchemaBeans.Generation.Constraints
import SchemaBeans.Proofs.Keywords.Members
import SchemaBeans.Proofs.Store.Library

/-! # The facts among the constraints of a schema

Each bound, each size and the pattern is a fact of its own, read from one or two keywords. Two
schemas that say the same under the keywords of a fact have the same fact, whatever else they
say. -/
namespace SchemaBeans

/-- What a constraint is about. -/
inductive Facet where
  | minimum
  | maximum
  | minSize
  | maxSize
  | pattern
  deriving DecidableEq, Repr

/-- What a constraint says. -/
inductive Fact where
  | bound (limit : Bound)
  | size (count : Nat)
  | pattern (expression : String)
  deriving DecidableEq, Repr

namespace Constraints

def fact? (c : Constraints) : Facet → Option Fact
  | .minimum => c.minimum.map .bound
  | .maximum => c.maximum.map .bound
  | .minSize => c.minSize.map .size
  | .maxSize => c.maxSize.map .size
  | .pattern => c.pattern.map .pattern

def Includes (c other : Constraints) : Prop :=
  ∀ facet fact, other.fact? facet = some fact → c.fact? facet = some fact

end Constraints

def Facet.keywords : Facet → List String
  | minimum => ["minimum", "exclusiveMinimum"]
  | maximum => ["maximum", "exclusiveMaximum"]
  | minSize => ["minItems", "minLength"]
  | maxSize => ["maxItems", "maxLength"]
  | pattern => ["pattern"]

def Json.under (names : List String) : Json → Json.Members
  | .object members => members.filter fun member => names.contains member.1
  | _ => []

namespace Keywords

variable {α : Type} {part : Keywords → α} {names : List String} {k l k' l' : Keywords}
  {members others : Json.Members}

/-- This part of the record is read from the named keywords only, and from nothing but what they
say. -/
structure Local (names : List String) (part : Keywords → α) : Prop where
  apart : ReadFrom names part
  same : ∀ entry ∈ entries, entry.name ∈ names → ∀ k l v k', part k = part l →
    entry.read k v = .ok k' → ∃ l', entry.read l v = .ok l' ∧ part k' = part l'

theorem field_same {β : Type} {decoder : Decoder β} {set : Keywords → Option β → Keywords}
    (hset : ∀ k l x, part k = part l → part (set k x) = part (set l x)) (k l : Keywords) (v : Json)
    (k' : Keywords) (hsame : part k = part l) (h : field decoder set k v = .ok k') :
    ∃ l', field decoder set l v = .ok l' ∧ part k' = part l' := by
  unfold field at h ⊢
  cases hread : Decoder.optional decoder v with
  | error fault =>
    rw [hread] at h
    cases h
  | ok x =>
    rw [hread] at h
    cases h
    exact ⟨set l x, rfl, hset k l x hsame⟩

theorem Local.restrict (hpart : Local names part) (hsame : part k = part l)
    (h : ofMembers k members = .ok k') :
    ∃ l', ofMembers l (Json.under names (.object members)) = .ok l' ∧ part k' = part l' := by
  induction members generalizing k l with
  | nil =>
    cases h
    exact ⟨l, rfl, hsame⟩
  | cons member rest ih =>
    obtain ⟨name, value⟩ := member
    by_cases hname : name ∈ names
    · have hkeep : Json.under names (.object ((name, value) :: rest)) =
          (name, value) :: Json.under names (.object rest) := by
        simp [Json.under, hname]
      rw [hkeep, ofMembers]
      obtain ⟨next, hrest, ⟨hnone, rfl⟩ | ⟨entry, hentry, hread⟩⟩ := ofMembers_cons h
      · simp only [hnone]
        exact ih hsame hrest
      · have hentryName : entry.name = name := by simpa using List.find?_some hentry
        obtain ⟨other, hother, hparts⟩ := hpart.same entry (List.mem_of_find?_eq_some hentry)
          (hentryName ▸ hname) k l value next hsame hread
        simp only [hentry, hother]
        exact ih hparts hrest
    · have hdrop : Json.under names (.object ((name, value) :: rest)) =
          Json.under names (.object rest) := by
        simp [Json.under, hname]
      rw [hdrop]
      obtain ⟨next, hrest, hkept⟩ := hpart.apart.cons hname h
      exact ih (hkept.trans hsame) hrest

theorem Local.agree (hpart : Local names part) (h : ofMembers {} members = .ok k)
    (h' : ofMembers {} others = .ok l)
    (hsame : Json.under names (.object members) = Json.under names (.object others)) :
    part k = part l := by
  obtain ⟨a, ha, hka⟩ := hpart.restrict rfl h
  obtain ⟨b, hb, hlb⟩ := hpart.restrict rfl h'
  rw [hsame, hb] at ha
  cases ha
  rw [hka, hlb]

theorem local_facets :
    (Local Facet.minimum.keywords fun k => (k.minimum, k.exclusiveMinimum)) ∧
    (Local Facet.maximum.keywords fun k => (k.maximum, k.exclusiveMaximum)) ∧
    (Local Facet.minSize.keywords fun k => (k.minItems, k.minLength)) ∧
    (Local Facet.maxSize.keywords fun k => (k.maxItems, k.maxLength)) ∧
    Local Facet.pattern.keywords Keywords.pattern := by
  refine ⟨?_, ?_, ?_, ?_, ?_⟩
  all_goals
    unfold Facet.keywords
    constructor
    · unfold ReadFrom entries
      repeat' refine List.forall_mem_cons.mpr ⟨?_, ?_⟩
      all_goals
        first
        | exact fun hname => absurd (by decide) hname
        | exact fun _ => field_apart _ fun _ _ => rfl
        | exact fun _ _ _ _ h => by cases h; rfl
        | exact List.forall_mem_nil _
    · unfold entries
      repeat' refine List.forall_mem_cons.mpr ⟨?_, ?_⟩
      all_goals
        first
        | exact fun hname => absurd hname (by decide)
        | exact fun _ => field_same fun _ _ _ h => by simp_all
        | exact List.forall_mem_nil _

end Keywords

theorem Library.keywordsOf_members {place : Location} {content : Json} {k : Keywords}
    (h : Store.keywordsOf place content = .ok k) :
    ∃ members, Keywords.ofMembers {} members = .ok k ∧
      ∀ names, content.under names = Json.under names (.object members) := by
  rcases keywordsOf_cases h with ⟨rfl, rfl⟩ | ⟨members, rfl, hread⟩
  · exact ⟨[], rfl, fun _ => rfl⟩
  · exact ⟨members, hread, fun _ => rfl⟩

theorem Constraints.fact?_agree {place other : Location} {content part : Json} {k l : Keywords}
    (h : Store.keywordsOf place content = .ok k) (h' : Store.keywordsOf other part = .ok l)
    (facet : Facet) (hsame : content.under facet.keywords = part.under facet.keywords) :
    (ofKeywords k).fact? facet = (ofKeywords l).fact? facet := by
  obtain ⟨members, hk, hmembers⟩ := Library.keywordsOf_members h
  obtain ⟨others, hl, hothers⟩ := Library.keywordsOf_members h'
  rw [hmembers, hothers] at hsame
  obtain ⟨hminimum, hmaximum, hminSize, hmaxSize, hpattern⟩ := Keywords.local_facets
  cases facet with
  | minimum =>
    have hparts := Prod.mk.inj (hminimum.agree hk hl hsame)
    simp only [fact?, ofKeywords, hparts.1, hparts.2]
  | maximum =>
    have hparts := Prod.mk.inj (hmaximum.agree hk hl hsame)
    simp only [fact?, ofKeywords, hparts.1, hparts.2]
  | minSize =>
    have hparts := Prod.mk.inj (hminSize.agree hk hl hsame)
    simp only [fact?, ofKeywords, hparts.1, hparts.2]
  | maxSize =>
    have hparts := Prod.mk.inj (hmaxSize.agree hk hl hsame)
    simp only [fact?, ofKeywords, hparts.1, hparts.2]
  | pattern => simp only [fact?, ofKeywords, hpattern.agree hk hl hsame]

end SchemaBeans

namespace SchemaBeans.Keywords

open Json (Lacks Distinct)

variable {α : Type} {name : String} {decoder : Decoder α} {part : Keywords → Option α}
  {k : Keywords} {members : Json.Members}

/-- The keyword of this name is read by the decoder, into this part of the record alone. -/
structure Reads (name : String) (decoder : Decoder α) (part : Keywords → Option α) : Prop where
  apart : ReadFrom [name] part
  fresh : part {} = none
  entry : ∃ set mayLack,
    entries.find? (·.name == name) = some { name, read := field decoder set, mayLack } ∧
      ∀ k x, part (set k x) = x

theorem Reads.cases (h : Reads name decoder part) (hdistinct : Distinct members)
    (hk : ofMembers {} members = .ok k) :
    (members.lookup name = none ∧ part k = none) ∨
      ∃ v, members.lookup name = some v ∧ decoder.optional v = .ok (part k) := by
  obtain ⟨set, mayLack, hentry, hset⟩ := h.entry
  cases hv : members.lookup name with
  | none =>
    have hlacks : Lacks [name] members := fun other hother => by
      rw [List.mem_singleton.mp hother]
      exact hv
    exact .inl ⟨rfl, (h.apart.missing hlacks hk).trans h.fresh⟩
  | some v =>
    refine .inr ⟨v, rfl, ?_⟩
    obtain ⟨before, after, hread⟩ := ofMembers_reads hk (Json.mem_of_lookup hv) hentry
    cases hx : decoder.optional v with
    | error fault =>
      simp [field, hx, Except.map] at hread
    | ok x =>
      have hpart : part k = x := h.apart.given hentry (fun k k' hread => by
        simp only [field, hx, Except.map, Except.ok.injEq] at hread
        rw [← hread, hset]) hdistinct hv hk
      rw [hpart]

theorem Reads.given (h : Reads name decoder part) (hdistinct : Distinct members)
    (hk : ofMembers {} members = .ok k) {v : Json} (hv : members.lookup name = some v) :
    decoder.optional v = .ok (part k) := by
  rcases h.cases hdistinct hk with ⟨hnone, -⟩ | ⟨w, hsome, hw⟩
  · rw [hv] at hnone
    cases hnone
  · rw [hv] at hsome
    cases hsome
    exact hw

theorem reads_keywords :
    Reads "$ref" Decoder.string Keywords.reference ∧ Reads "type" typeKeyword Keywords.type ∧
    Reads "properties" Decoder.members Keywords.properties ∧
    Reads "required" requiredKeyword Keywords.required ∧
    Reads "minimum" Decoder.number Keywords.minimum ∧
    Reads "maximum" Decoder.number Keywords.maximum ∧
    Reads "exclusiveMinimum" exclusiveBound Keywords.exclusiveMinimum ∧
    Reads "exclusiveMaximum" exclusiveBound Keywords.exclusiveMaximum := by
  refine ⟨?_, ?_, ?_, ?_, ?_, ?_, ?_, ?_⟩
  all_goals
    refine ⟨?_, rfl, _, _, rfl, fun _ _ => rfl⟩
    unfold ReadFrom entries
    repeat' refine List.forall_mem_cons.mpr ⟨?_, ?_⟩
  all_goals
    first
    | exact fun hname => absurd (by decide) hname
    | exact fun _ => field_apart _ fun _ _ => rfl
    | exact fun _ _ _ _ h => by cases h; rfl
    | exact List.forall_mem_nil _

theorem plain_iff (hdistinct : Distinct members) (hk : ofMembers {} members = .ok k) :
    k.reference = none ↔ ∀ reference, members.lookup "$ref" ≠ some (.string reference) := by
  constructor
  · intro hnone reference hstring
    have hread := reads_keywords.1.given hdistinct hk hstring
    rw [hnone] at hread
    cases hread
  · intro hplain
    rcases reads_keywords.1.cases hdistinct hk with ⟨-, hnone⟩ | ⟨v, hv, hread⟩
    · exact hnone
    · cases v with
      | string reference => exact absurd hv (hplain reference)
      | null => exact (Except.ok.inj hread).symm
      | _ => cases hread

end SchemaBeans.Keywords
