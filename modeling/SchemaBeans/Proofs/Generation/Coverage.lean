import SchemaBeans.Proofs.Generation.RuleRuns
import SchemaBeans.Proofs.Generation.Trails
import SchemaBeans.Proofs.Generation.WarrantRuns

/-! # Whatever is asked for is generated

At the end of a run no type is left half built, so whatever a schema hands on is settled as well.
From the starts on everything that is asked for is settled, in whatever order the run came to it,
and the types of the run are those that are asked for. -/
namespace SchemaBeans

namespace Library

open Drafting

variable {lib : Library} {schema : SchemaNode}

theorem Alternatives.unique (hkeys : lib.KeysOnce) {found others : List (Location × SchemaNode)}
    (h : lib.Alternatives schema found) (k : lib.Alternatives schema others) : found = others := by
  obtain ⟨all, hall, rfl⟩ := h
  obtain ⟨rest, hrest, rfl⟩ := k
  have hsame : ∀ (index : Nat) (a b : Location × SchemaNode),
      (a.1 = branchPlace schema index ∧ lib.Stands a.1 a.2) →
      (b.1 = branchPlace schema index ∧ lib.Stands b.1 b.2) → a = b := by
    rintro index ⟨_, a⟩ ⟨_, b⟩ ⟨rfl, ha⟩ ⟨rfl, hb⟩
    exact Prod.ext rfl (ha.unique hkeys hb)
  rw [List.right_unique_forall₂' hsame hall hrest]

theorem GeneratesAs.unique (hkeys : lib.KeysOnce) {a b : Shape} (h : lib.GeneratesAs schema a)
    (k : lib.GeneratesAs schema b) : a = b := by
  cases h with
  | own h =>
    cases k with
    | own => rfl
    | merged hshape => exact absurd hshape h
  | merged hshape hmade =>
    cases k with
    | own h => exact absurd hshape h
    | merged _ kmade => rw [hmade.unique hkeys kmade]

theorem Declares.ownKind {kind : TypeKind} (h : lib.Declares schema kind) (hkeys : lib.KeysOnce)
    (hunion : schema.shape = .union) {found : List (Location × SchemaNode)} {shapes : List Shape}
    (hfound : lib.Alternatives schema found)
    (hshapes : List.Forall₂ (fun branch shape => lib.GeneratesAs branch.2 shape) found shapes) :
    ownKind? schema.keywords shapes = some kind := by
  cases h with
  | object hshape | enumeration hshape => simp [hunion] at hshape
  | union _ kfound kshapes hkind =>
    obtain rfl := hfound.unique hkeys kfound
    rw [List.right_unique_forall₂' (fun _ _ _ ha hb => ha.unique hkeys hb) hshapes kshapes]
    exact hkind

theorem Declares.unique (hkeys : lib.KeysOnce) {a b : TypeKind} (h : lib.Declares schema a)
    (k : lib.Declares schema b) : a = b := by
  cases k with
  | object hshape | enumeration hshape => cases h <;> simp_all
  | union hshape hfound hshapes hkind =>
    exact Option.some.inj ((h.ownKind hkeys hshape hfound hshapes).symm.trans hkind)

def distinctKeys : Json → Bool
  | .object members => decide (Json.Distinct members)
  | _ => true

theorem keysOnce_of_parts {documents : List (String × Json)}
    (hdocuments : ∀ name content, lib name = .ok content → (name, content) ∈ documents)
    (h : (documents.all fun document => document.2.parts.all distinctKeys) = true) :
    lib.KeysOnce := by
  intro place members hcontains
  obtain ⟨document, hdocument, hpart⟩ := hcontains.part hdocuments
  exact of_decide_eq_true (List.all_eq_true.mp (List.all_eq_true.mp h _ hdocument) _ hpart)

/-- Where nothing is merged, whatever is found stands in a document. -/
theorem Uncombined.contains (hlib : lib.Uncombined) {finding : Finding} (h : lib.Finds finding) :
    match finding with
    | .value place content => lib.Contains place content
    | .schema _ location content => lib.Contains location content
    | .members _ _ _ => True := by
  induction h with
  | document h => exact h
  | child _ _ hpart ih => exact ih.below _ hpart
  | merge _ hread hallOf _ _ ih =>
    rw [(hlib _ _ _ ih hread).1] at hallOf
    cases hallOf
  | plain _ _ _ ih => exact ih
  | refers _ _ _ _ _ _ ih => exact ih
  | nothing | parent | part | nested => trivial

theorem Alternatives.places {found : List (Location × SchemaNode)}
    (h : lib.Alternatives schema found) {index : Nat} {entry : Location × SchemaNode}
    (hentry : found[index]? = some entry) : ∃ i, entry.1 = branchPlace schema i := by
  obtain ⟨all, hall, rfl⟩ := h
  have hplaces : ∀ entry ∈ all, ∃ i, entry.1 = branchPlace schema i :=
    forall_mem_of_forall₂ (fun i _ hi => ⟨i, hi.1⟩) hall
  exact hplaces entry (List.mem_of_mem_filter (List.mem_of_getElem? hentry))

variable {settings : Settings} {starts : Location → Prop} {asking : Asking}

theorem Asked.own_of_root (hlib : lib.Uncombined) (h : lib.Asked settings starts schema asking)
    (hroot : schema.location.pointer = "") : asking = .own schema.location := by
  cases h with
  | start => rfl
  | @merged above _ _ habove _ hshape =>
    have hread := habove.stands.toRead
    have hcontains := hlib.contains habove.stands.finds
    have hallOf := (classify_allOf hread.shape).mp hshape
    rw [(hlib _ _ _ hcontains hread.keywords).1] at hallOf
    cases hallOf
  | handed _ _ hhands hchild =>
    unfold Asking.reaching
    split
    · rename_i hplace
      cases hhands with
      | family => rw [hplace]
      | branch _ hfound hentry =>
        obtain ⟨i, hbranch⟩ := hfound.places hentry
        exact absurd (hplace.trans hbranch) (Location.below_ne_root hroot)
      | _ => exact absurd hplace (Location.below_ne_root hroot)
    · rfl

theorem Uncombined.namedOnce (hlib : lib.Uncombined) {root : Location} (hroot : root.pointer = "") :
    lib.NamedOnce settings starts root := by
  rintro schema a b rfl ha hb
  rw [ha.own_of_root hlib hroot, hb.own_of_root hlib hroot]

end Library

namespace Drafting

variable {ctx : Context} {lib : Library} {starts : Location → Prop} {d : Draft} {id : NodeId}
  {k : Nat} {t : TypeRef} {kind : TypeKind} {place : Location} {schema : SchemaNode}
  {asking inner : Asking}

theorem Makes.declares (ht : d.store.Truthful ctx.files lib) (h : Makes d id kind) :
    lib.Declares (d.store.node id).alone kind := by
  cases h with
  | object hshape => exact .object hshape
  | enumeration hshape => exact .enumeration hshape
  | union hshape hplan hkind => exact declares_of_plan ht hshape hplan hkind

theorem makes_of_typed (hd : Consistent d) (hid : d.store.Has id) {type : TypeId}
    (htype : d.graph.typeAt? (d.store.node id).location = some type) :
    d.graph.Has type ∧ d.store.id? (d.graph.get type).place = some id ∧
      Makes d id (d.graph.get type).kind := by
  obtain ⟨hhas, hplace⟩ := TypeGraph.typeAt?_some hd.placed htype
  obtain ⟨maker, hmaker, -, -, hmakes⟩ := hd.declared type hhas
  have hown := hmaker
  rw [hplace, hd.store.own hid] at hown
  obtain rfl := Option.some.inj hown
  exact ⟨hhas, hmaker, hmakes⟩

theorem not_typed (hd : Consistent d) (hid : d.store.Has id) {shape : Shape}
    (hshape : (d.store.node id).shape = shape) (hobject : shape ≠ .object)
    (henum : shape ≠ .enumeration) (hunion : shape ≠ .union) (type : TypeId) :
    d.graph.typeAt? (d.store.node id).location ≠ some type := by
  intro htype
  subst hshape
  obtain ⟨-, -, hmakes⟩ := makes_of_typed hd hid htype
  generalize (d.graph.get type).kind = kind at hmakes
  cases hmakes with
  | object hshape => exact hobject hshape
  | enumeration hshape => exact henum hshape
  | union hshape => exact hunion hshape

/-- Of a settled union, every branch is settled. -/
theorem Settles.branches (hd : Consistent d) (hid : d.store.Has id)
    (hlib : library? (d.store.node id) = none)
    (hshape : (d.store.node id).shape = .union) (hbuilt : Built ctx d k 0)
    (h : Settles ctx d k id t) : ∃ found, Branches d.store id found ∧
      ∀ branch ∈ found, ∃ u, Settles ctx d k branch.id u := by
  cases k with
  | zero => exact h.elim
  | succ k =>
    cases h with
    | typed htype =>
      obtain ⟨hhas, hplace, -⟩ := makes_of_typed hd hid htype
      obtain ⟨other, hother, hall⟩ := hbuilt.gathered _ hhas (Nat.zero_le _)
      obtain rfl := Option.some.inj (hplace.symm.trans hother)
      obtain ⟨found, hfound, hgathers⟩ := hall hshape
      exact ⟨found, hfound, fun branch hbranch => by
        obtain ⟨u, hu, -⟩ := hgathers branch hbranch
        exact ⟨u, hu⟩⟩
    | library hname =>
      rw [hlib] at hname
      cases hname
    | union _ _ hplan _ hbelow =>
      refine ⟨_, hplan.branches, fun branch hbranch => ?_⟩
      have hhas := hplan.branches.has hd.store branch hbranch
      obtain ⟨u, hu⟩ := forall_mem_of_forall₂ (p := fun (branch : Store.Child) =>
        ∃ u, Settles ctx d k branch.id u) (fun u _ hu => ⟨u, hu⟩) hbelow.flip branch hbranch
      exact ⟨u, hu.mono hd.store (Nat.le_succ k) hhas⟩
    | allOf _ hother | untyped _ hother | items _ hother | primitive _ hother | any _ hother =>
      rw [hshape] at hother
      cases hother

theorem PlaceSettled.on_record (hkeys : lib.KeysOnce) (ht : d.store.Truthful ctx.files lib)
    (h : PlaceSettled ctx d k place) (hschema : lib.Stands place schema) :
    ∃ id t, d.store.Has id ∧ (d.store.node id).alone = schema ∧ Settles ctx d k id t := by
  obtain ⟨id, t, hid, hsettles⟩ := h
  exact ⟨id, t, ht.bound hid, (ht.stands hid).unique hkeys hschema, hsettles⟩

section Built

variable (hkeys : lib.KeysOnce) (ht : d.store.Truthful ctx.files lib) (hd : Consistent d)
  (hbuilt : Built ctx d k 0)

include hkeys ht hd

theorem Settles.has_type (hid : d.store.Has id) (hlib : library? (d.store.node id) = none)
    (hdeclares : lib.Declares (d.store.node id).alone kind) (h : Settles ctx d k id t) :
    ∃ type, d.graph.typeAt? (d.store.node id).location = some type ∧ d.graph.Has type ∧
      d.store.id? (d.graph.get type).place = some id ∧ (d.graph.get type).kind = kind := by
  cases k with
  | zero => exact h.elim
  | succ k =>
    have hshape : ∀ shape, (d.store.node id).shape = shape →
        (d.store.node id).alone.shape = shape := fun _ h => h
    cases h with
    | typed htype =>
      obtain ⟨hhas, hplace, hmakes⟩ := makes_of_typed hd hid htype
      exact ⟨_, htype, hhas, hplace, (hmakes.declares ht).unique hkeys hdeclares⟩
    | library hname =>
      rw [hlib] at hname
      cases hname
    | union _ hunion hplan hmarker =>
      obtain ⟨entries, hentries, hshown⟩ := alternatives_of_branches ht hplan.branches
      have hown := hdeclares.ownKind hkeys hunion hentries (forall₂_join (by
        rintro branch entry shape ⟨index, -, rfl⟩ heffective
        exact generatesAs_of_effective ht heffective) hshown hplan.shapes)
      rw [Library.ownKind?_eq hplan.shapes.length_eq] at hown
      exact absurd (hmarker.symm.trans hown) nofun
    | allOf _ hother | untyped _ hother | items _ hother | primitive _ hother | any _ hother =>
      have := hshape _ hother
      cases hdeclares <;> simp_all

/-- What a settled schema hands on is settled. -/
theorem Settles.handed (hid : d.store.Has id) (hlib : library? (d.store.node id) = none)
    (hbuilt : Built ctx d k 0) (h : Settles ctx d k id t)
    (hhands : lib.Hands ctx.settings (d.store.node id).alone asking place inner) :
    PlaceSettled ctx d k place := by
  have hbeside : ∀ {kind : TypeKind}, lib.Declares (d.store.node id).alone kind →
      Beside ctx.settings (d.store.node id) kind place → PlaceSettled ctx d k place := by
    intro kind hdeclares hplace
    obtain ⟨type, -, hhas, hknown, rfl⟩ := h.has_type hkeys ht hd hid hlib hdeclares
    obtain ⟨other, hother, hall⟩ := hbuilt.attended type hhas (Nat.zero_le _)
    obtain rfl := Option.some.inj (hknown.symm.trans hother)
    exact hall place hplace
  cases hhands with
  | superclass hkind hsuper => exact hbeside hkind (.superclass rfl hsuper)
  | additional hkind henabled htyped => exact hbeside hkind (.additional rfl henabled htyped)
  | family hkind hne hplace => exact hbeside hkind (.family hne hplace)
  | property hkind hkey =>
    obtain ⟨type, -, hhas, hknown, hbean⟩ := h.has_type hkeys ht hd hid hlib hkind
    obtain ⟨other, hother, hcomplete⟩ := hbuilt.filled type hhas (Nat.zero_le _)
    obtain rfl := Option.some.inj (hknown.symm.trans hother)
    unfold CompleteDecl at hcomplete
    rw [hbean] at hcomplete
    have hall : ∀ key ∈ memberKeys (d.store.node id).keywords,
        ∃ p, Describes ctx d k id key p :=
      forall_mem_of_forall₂ (fun p _ hp => ⟨p, hp⟩) hcomplete.described.flip
    obtain ⟨p, found, hfound, -, hp⟩ := hall _ hkey
    exact ⟨_, _, hfound.known, hp⟩
  | items hshape htyped =>
    cases k with
    | zero => exact h.elim
    | succ k =>
      cases h with
      | typed htype => exact absurd htype (not_typed hd hid hshape nofun nofun nofun _)
      | library hname =>
        rw [hlib] at hname
        cases hname
      | items _ _ _ hfound hbelow =>
        have hhas := hfound.has hd.store
        exact ⟨_, _, hfound.known, hbelow.mono hd.store (Nat.le_succ k) hhas⟩
      | untyped _ _ hitems => exact absurd (htyped.symm.trans hitems) nofun
      | allOf _ hother | union _ hother | primitive _ hother | any _ hother =>
        exact absurd (hshape.symm.trans hother) nofun
  | branch hshape hfound hentry =>
    obtain ⟨found, hbranches, hsettled⟩ := h.branches hd hid hlib hshape hbuilt
    obtain ⟨entries, hentries, hshown⟩ := alternatives_of_branches ht hbranches
    obtain rfl := hentries.unique hkeys hfound
    have hboth := (List.forall₂_and_left _ _).mpr ⟨hsettled, hshown⟩
    have hall := forall_mem_of_forall₂ (p := fun (entry : Location × SchemaNode) =>
      PlaceSettled ctx d k entry.1) (by
        rintro branch entry ⟨⟨u, hu⟩, index, hfound, rfl⟩
        exact ⟨_, u, hfound.known, hu⟩) hboth
    exact hall _ (List.mem_of_getElem? hentry)

include hbuilt

theorem settled_of_asked (hstarts : ∀ place, starts place → PlaceSettled ctx d k place)
    (h : lib.Asked ctx.settings starts schema asking) :
    ∃ id t, d.store.Has id ∧ (d.store.node id).alone = schema ∧ Settles ctx d k id t := by
  induction h with
  | start hplace hschema => exact (hstarts _ hplace).on_record hkeys ht hschema
  | merged h hlib hshape hmade ih =>
    obtain ⟨id, t, hid, rfl, hsettles⟩ := ih
    refine PlaceSettled.on_record hkeys ht ?_ hmade
    cases k with
    | zero => exact hsettles.elim
    | succ k =>
      cases hsettles with
      | typed htype => exact absurd htype (not_typed hd hid hshape nofun nofun nofun _)
      | library hname => exact absurd (hlib.symm.trans hname) nofun
      | allOf _ _ hmerge hbelow =>
        have hhas := hmerge.has_made hd.store
        exact ⟨_, _, hmerge.place, hbelow.mono hd.store (Nat.le_succ k) hhas⟩
      | union _ hother | untyped _ hother | items _ hother | primitive _ hother | any _ hother =>
        exact absurd (hshape.symm.trans hother) nofun
  | handed h hlib hhands hchild ih =>
    obtain ⟨id, t, hid, rfl, hsettles⟩ := ih
    exact (hsettles.handed hkeys ht hd hid hlib hbuilt hhands).on_record hkeys ht hchild

end Built

/-- A finished run has a type at exactly the places of the schemas that are asked for and declare
one. -/
theorem typed_iff_asked (hkeys : lib.KeysOnce) (hd : Consistent d) (hbuilt : Built ctx d k 0)
    (hwarranted : Warranted ctx lib starts d)
    (hstarts : ∀ place, starts place → PlaceSettled ctx d k place) (place : Location) :
    (d.graph.typeAt? place).isSome ↔ ∃ schema asking kind,
      lib.Asked ctx.settings starts schema asking ∧ schema.location = place ∧
        library? schema = none ∧ lib.Declares schema kind := by
  constructor
  · intro htype
    obtain ⟨type, htype⟩ := Option.isSome_iff_exists.mp htype
    obtain ⟨hhas, rfl⟩ := TypeGraph.typeAt?_some hd.placed htype
    obtain ⟨schema, asking, hw⟩ := hwarranted.types type hhas
    exact ⟨schema, asking, _, hw.asked, hw.place, hw.library, hw.kind⟩
  · rintro ⟨schema, asking, kind, hasked, rfl, hlib, hkind⟩
    have ht := hwarranted.store
    obtain ⟨id, t, hid, rfl, hsettles⟩ := settled_of_asked hkeys ht hd hbuilt hstarts hasked
    obtain ⟨type, htype, -⟩ := hsettles.has_type hkeys ht hd hid hlib hkind
    exact Option.isSome_iff_exists.mpr ⟨type, htype⟩

theorem named_once (hkeys : lib.KeysOnce) {d e : Draft} (hd : Warranted ctx lib starts d)
    (hdp : d.graph.Placed) (he : Warranted ctx lib starts e) (hep : e.graph.Placed)
    (honce : lib.NamedOnce ctx.settings starts place)
    {a b : TypeId} (ha : d.graph.typeAt? place = some a) (hb : e.graph.typeAt? place = some b) :
    ((d.graph.get a).package, d.graph.qualifiedName a) =
      ((e.graph.get b).package, e.graph.qualifiedName b) := by
  obtain ⟨hhas, hplace⟩ := TypeGraph.typeAt?_some hdp ha
  obtain ⟨khas, kplace⟩ := TypeGraph.typeAt?_some hep hb
  obtain ⟨schema, asking, hw⟩ := hd.types a hhas
  obtain ⟨other, inner, kw⟩ := he.types b khas
  have hsame : schema = other := by
    refine hw.asked.stands.unique hkeys ?_
    rw [hw.place.trans (hplace.trans (kw.place.trans kplace).symm)]
    exact kw.asked.stands
  subst hsame
  rw [hw.named, kw.named]
  exact honce schema asking inner (hw.place.trans hplace) hw.asked kw.asked

end Drafting

end SchemaBeans
