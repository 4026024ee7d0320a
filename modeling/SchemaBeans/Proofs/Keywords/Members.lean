import SchemaBeans.Proofs.Store.Nodes

/-! # Keywords that are there, and keywords that are not

Each keyword is read into a part of the record of its own. A part whose keywords are missing stays
as it is, and one whose keyword stands once has what is read from it. So a few members of a schema
tell its shape, whatever else it says. -/
namespace SchemaBeans

namespace Json

def Lacks (names : List String) (members : Members) : Prop :=
  ∀ name ∈ names, members.lookup name = none

def Distinct (members : Members) : Prop := (members.map (·.1)).Nodup

instance (names : List String) (members : Members) : Decidable (Lacks names members) :=
  decidable_of_iff (∀ name ∈ names, (members.lookup name).isNone) <| by
    simp only [Lacks, Option.isNone_iff_eq_none]

instance (members : Members) : Decidable (Distinct members) :=
  inferInstanceAs (Decidable (List.Nodup _))

theorem lookup_eq_none {members : Members} {name : String} :
    members.lookup name = none ↔ name ∉ members.map (·.1) := by
  rw [List.lookup_eq_none_iff, List.mem_map]
  constructor
  · rintro h ⟨member, hmember, rfl⟩
    simpa using h member hmember
  · intro h member hmember
    simpa using fun heq : name = member.1 => h ⟨member, hmember, heq.symm⟩

/-- A member whose name stands once is the one that is found. -/
theorem Distinct.lookup {members : Members} {name : String} {value : Json}
    (hdistinct : Distinct members) (h : (name, value) ∈ members) :
    members.lookup name = some value := by
  induction members with
  | nil => cases h
  | cons member rest ih =>
    rw [Distinct, List.map_cons, List.nodup_cons] at hdistinct
    rcases List.mem_cons.mp h with rfl | h
    · simp
    · have hne : name ≠ member.1 := fun hsame =>
        hdistinct.1 (hsame ▸ List.mem_map_of_mem (f := fun member => member.1) h)
      rw [List.lookup_cons, beq_eq_false_iff_ne.mpr hne]
      exact ih hdistinct.2 h

end Json

namespace Keywords

open Json (Lacks Distinct)

variable {α : Type} {part : Keywords → α} {names : List String} {k k' : Keywords}
  {members : Json.Members}

/-- Only the named keywords are read into this part of the record. -/
def ReadFrom (names : List String) (part : Keywords → α) : Prop :=
  ∀ entry ∈ entries, entry.name ∉ names → ∀ k v k', entry.read k v = .ok k' → part k' = part k

theorem ofMembers_cons {name : String} {value : Json} {rest : Json.Members}
    (h : ofMembers k ((name, value) :: rest) = .ok k') :
    ∃ next, ofMembers next rest = .ok k' ∧
      ((entries.find? (·.name == name) = none ∧ next = k) ∨
        ∃ entry, entries.find? (·.name == name) = some entry ∧ entry.read k value = .ok next) := by
  unfold ofMembers at h
  cases hentry : entries.find? (·.name == name) with
  | none =>
    rw [hentry] at h
    exact ⟨k, h, .inl ⟨rfl, rfl⟩⟩
  | some entry =>
    simp only [hentry] at h
    cases hread : entry.read k value with
    | error fault =>
      rw [hread] at h
      cases h
    | ok next =>
      rw [hread] at h
      exact ⟨next, h, .inr ⟨entry, rfl, hread⟩⟩

theorem ofMembers_keeps {P : Keywords → Prop} (h : ofMembers k members = .ok k')
    (hread : ∀ name value entry, (name, value) ∈ members → entry ∈ entries → entry.name = name →
      ∀ before after, P before → entry.read before value = .ok after → P after) (hk : P k) :
    P k' := by
  induction members generalizing k with
  | nil =>
    cases h
    exact hk
  | cons member rest ih =>
    obtain ⟨name, value⟩ := member
    have hlater := fun name value entry hmember =>
      hread name value entry (List.mem_cons_of_mem _ hmember)
    obtain ⟨next, hrest, ⟨-, rfl⟩ | ⟨entry, hentry, hnext⟩⟩ := ofMembers_cons h
    · exact ih hrest hlater hk
    · have hname : entry.name = name := by simpa using List.find?_some hentry
      exact ih hrest hlater (hread name value entry List.mem_cons_self
        (List.mem_of_find?_eq_some hentry) hname k next hk hnext)

theorem ofMembers_reads {name : String} {value : Json} {entry : Entry}
    (h : ofMembers k members = .ok k') (hmember : (name, value) ∈ members)
    (hentry : entries.find? (·.name == name) = some entry) :
    ∃ before after, entry.read before value = .ok after := by
  induction members generalizing k with
  | nil => cases hmember
  | cons member rest ih =>
    obtain ⟨next, hrest, hfirst⟩ := ofMembers_cons h
    rcases List.mem_cons.mp hmember with rfl | hmember
    · rcases hfirst with ⟨hnone, -⟩ | ⟨other, hother, hread⟩
      · rw [hentry] at hnone
        cases hnone
      · rw [hentry] at hother
        cases hother
        exact ⟨k, next, hread⟩
    · exact ih hrest hmember

theorem ReadFrom.cons {name : String} {value : Json} {rest : Json.Members}
    (hpart : ReadFrom names part) (hname : name ∉ names)
    (h : ofMembers k ((name, value) :: rest) = .ok k') :
    ∃ next, ofMembers next rest = .ok k' ∧ part next = part k := by
  obtain ⟨next, hrest, ⟨-, rfl⟩ | ⟨entry, hentry, hread⟩⟩ := ofMembers_cons h
  · exact ⟨next, hrest, rfl⟩
  · have hsame : entry.name = name := by simpa using List.find?_some hentry
    exact ⟨next, hrest,
      hpart entry (List.mem_of_find?_eq_some hentry) (hsame ▸ hname) k value next hread⟩

theorem ReadFrom.missing (hpart : ReadFrom names part) (hlacks : Lacks names members)
    (h : ofMembers k members = .ok k') : part k' = part k := by
  induction members generalizing k with
  | nil =>
    cases h
    rfl
  | cons member rest ih =>
    obtain ⟨name, value⟩ := member
    have hnone : ∀ other ∈ names, other ≠ name ∧ rest.lookup other = none := by
      intro other hother
      have hlookup := hlacks other hother
      rw [Json.lookup_eq_none, List.map_cons, List.mem_cons, not_or] at hlookup
      exact ⟨hlookup.1, Json.lookup_eq_none.mpr hlookup.2⟩
    obtain ⟨next, hrest, hsame⟩ := hpart.cons (fun hname => (hnone name hname).1 rfl) h
    exact (ih (fun other hother => (hnone other hother).2) hrest).trans hsame

/-- What the one member with the name says is what the part has. -/
theorem ReadFrom.given {name : String} {value : Json} {a : α} {entry : Entry}
    (hpart : ReadFrom [name] part) (hentry : entries.find? (·.name == name) = some entry)
    (hread : ∀ k k', entry.read k value = .ok k' → part k' = a) (hdistinct : Distinct members)
    (hvalue : members.lookup name = some value) (h : ofMembers k members = .ok k') :
    part k' = a := by
  induction members generalizing k with
  | nil => cases hvalue
  | cons member rest ih =>
    obtain ⟨key, first⟩ := member
    rw [Distinct, List.map_cons, List.nodup_cons] at hdistinct
    rw [List.lookup_cons] at hvalue
    by_cases hkey : name = key
    · subst hkey
      simp only [beq_self_eq_true, Option.some.injEq] at hvalue
      subst hvalue
      obtain ⟨next, hrest, ⟨hnone, -⟩ | ⟨other, hother, hnext⟩⟩ := ofMembers_cons h
      · rw [hentry] at hnone
        cases hnone
      · rw [hentry] at hother
        obtain rfl := Option.some.inj hother
        have hlacks : Lacks [name] rest := fun other hmem => by
          rw [List.mem_singleton.mp hmem]
          exact Json.lookup_eq_none.mpr hdistinct.1
        exact (hpart.missing hlacks hrest).trans (hread _ _ hnext)
    · simp only [beq_eq_false_iff_ne.mpr hkey] at hvalue
      obtain ⟨next, hrest, -⟩ := hpart.cons (by simpa using Ne.symm hkey) h
      exact ih hdistinct.2 hvalue hrest

theorem field_apart (part : Keywords → α) {β : Type} {decoder : Decoder β}
    {set : Keywords → Option β → Keywords} (hset : ∀ k x, part (set k x) = part k) (k : Keywords)
    (v : Json) (k' : Keywords) (h : field decoder set k v = .ok k') : part k' = part k :=
  field_keeps hset h

/-- The keywords that come before `type` in telling the shape. -/
def combinators : List String := ["$ref", "allOf", "oneOf", "anyOf", "enum"]

/-- The keywords for what a class extends, for the class it stands for and for its family. -/
def ties : List String :=
  ["extends", "existingJavaType", "discriminator", "deserializationClassProperty"]

theorem readFrom_parts :
    (ReadFrom combinators fun k => (k.reference, k.allOf, k.oneOf, k.anyOf, k.enumeration)) ∧
    (ReadFrom ties fun k => (k.superclass, k.existingJavaType, k.family)) ∧
    ReadFrom ["type"] Keywords.type ∧ ReadFrom ["properties"] Keywords.properties ∧
    ReadFrom ["allOf"] Keywords.allOf := by
  unfold ReadFrom entries combinators ties
  refine ⟨?_, ?_, ?_, ?_, ?_⟩
  all_goals
    repeat' refine List.forall_mem_cons.mpr ⟨?_, ?_⟩
  all_goals
    first
    | exact fun hname => absurd (by decide) hname
    | exact fun _ => field_apart _ fun _ _ => rfl
    | exact fun _ _ _ _ h => by cases h; rfl
    | exact List.forall_mem_nil _

theorem type_given {name : String} (hdistinct : Distinct members)
    (hvalue : members.lookup "type" = some (.string name)) (h : ofMembers {} members = .ok k) :
    k.type = some (.single name) :=
  readFrom_parts.2.2.1.given rfl (fun k k' hread => by cases hread; rfl) hdistinct hvalue h

theorem properties_given {properties : Json.Members} (hdistinct : Distinct members)
    (hvalue : members.lookup "properties" = some (.object properties))
    (h : ofMembers {} members = .ok k) : k.properties = some properties :=
  readFrom_parts.2.2.2.1.given rfl (fun k k' hread => by cases hread; rfl) hdistinct hvalue h

theorem properties_object {value : Json} (h : ofMembers {} members = .ok k)
    (hvalue : ("properties", value) ∈ members) :
    value = .null ∨ ∃ properties, value = .object properties := by
  obtain ⟨before, after, hread⟩ := ofMembers_reads h hvalue rfl
  cases value with
  | null => exact .inl rfl
  | object properties => exact .inr ⟨properties, rfl⟩
  | _ => cases hread

theorem family_read : ∀ entry ∈ entries, ∀ k v k', entry.read k v = .ok k' → ∀ metadata,
    metadata ∈ [k'.discriminator, k'.deserializationClassProperty] →
      metadata ∈ [k.discriminator, k.deserializationClassProperty] ∨
        Decoder.optional Decoder.any v = .ok metadata := by
  have hapart : ∀ {β : Type} {decoder : Decoder β} {set : Keywords → Option β → Keywords},
      (∀ k x, [(set k x).discriminator, (set k x).deserializationClassProperty] =
        [k.discriminator, k.deserializationClassProperty]) →
      ∀ k v k', field decoder set k v = .ok k' → ∀ metadata,
        metadata ∈ [k'.discriminator, k'.deserializationClassProperty] →
          metadata ∈ [k.discriminator, k.deserializationClassProperty] ∨
            Decoder.optional Decoder.any v = .ok metadata := by
    intro β decoder set hset k v k' h metadata hmetadata
    have hsame := @field_keeps _ _ decoder set
      (fun k => [k.discriminator, k.deserializationClassProperty]) hset k k' v h
    exact .inl (hsame ▸ hmetadata)
  have hown : ∀ {set : Keywords → Option Json → Keywords}, (∀ k x metadata,
      metadata ∈ [(set k x).discriminator, (set k x).deserializationClassProperty] →
        metadata ∈ [k.discriminator, k.deserializationClassProperty] ∨ x = metadata) →
      ∀ k v k', field Decoder.any set k v = .ok k' → ∀ metadata,
        metadata ∈ [k'.discriminator, k'.deserializationClassProperty] →
          metadata ∈ [k.discriminator, k.deserializationClassProperty] ∨
            Decoder.optional Decoder.any v = .ok metadata := by
    intro set hset k v k' h metadata hmetadata
    unfold field at h
    cases hx : Decoder.optional Decoder.any v with
    | error fault => simp [hx, Except.map] at h
    | ok x =>
      simp only [hx, Except.map, Except.ok.injEq] at h
      subst h
      exact (hset k x metadata hmetadata).imp_right fun hsame => by rw [hsame]
  unfold entries
  repeat' refine List.forall_mem_cons.mpr ⟨?_, ?_⟩
  all_goals
    first
    | exact hapart fun _ _ => rfl
    | exact fun _ _ _ h _ hmetadata => by cases h; exact .inl hmetadata
    | exact hown fun k x metadata hmetadata => by
        simp only [List.mem_cons, List.not_mem_nil, or_false] at hmetadata ⊢
        rcases hmetadata with rfl | rfl <;> simp
    | exact List.forall_mem_nil _

theorem family_holds {metadata : Json} {text : String} (h : ofMembers {} members = .ok k)
    (hfamily : k.family = some metadata) (htext : metadata.Holds text) :
    (Json.object members).Holds text := by
  have hboth := ofMembers_keeps (P := fun k => ∀ metadata, some metadata ∈
    [k.discriminator, k.deserializationClassProperty] → metadata.Holds text →
      (Json.object members).Holds text) h
    (fun name value entry hmember hentry _ before after hbefore hread metadata hafter htext => by
      rcases family_read entry hentry before value after hread _ hafter with hold | hvalue
      · exact hbefore metadata hold htext
      · cases value with
        | null => cases hvalue
        | _ =>
          cases hvalue
          exact .member hmember htext)
    (fun metadata hnone => by simp at hnone)
  refine hboth metadata ?_ htext
  unfold family at hfamily
  cases hfirst : k.discriminator with
  | none => simpa [hfirst] using hfamily.symm
  | some first =>
    rw [hfirst] at hfamily
    cases hfamily
    exact List.mem_cons_self

theorem allOf_given (hdistinct : Distinct members) (h : ofMembers {} members = .ok k)
    (hsome : k.allOf.isSome = true) : ∃ items, members.lookup "allOf" = some (.array items) := by
  have hpart := readFrom_parts.2.2.2.2
  by_contra hno
  have hnone : k.allOf = none := by
    cases hvalue : members.lookup "allOf" with
    | none =>
      refine hpart.missing (fun name hname => ?_) h
      rw [List.mem_singleton.mp hname]
      exact hvalue
    | some value =>
      refine hpart.given rfl (fun k k' hread => ?_) hdistinct hvalue h
      cases value with
      | array items => exact absurd ⟨items, hvalue⟩ hno
      | null =>
        cases hread
        rfl
      | _ => cases hread
  rw [hnone] at hsome
  cases hsome

end Keywords

end SchemaBeans
