import SchemaBeans.Proofs.Generation.Records
import SchemaBeans.Proofs.Generation.Visiting

/-! # Trails of a run

A call is made inside other calls, whose locations are its trail. Each of them has its type
already, or it is an array on the way to its items. A location comes back on the trail only while
the run goes from array to items through locations that are on it already, and such a row has an
end where no array is among its own items. So a trail is at most twice as long as the region is
large. -/
namespace SchemaBeans

open Relation

namespace Library

open Drafting (untypedItems)

variable {lib : Library} {region : Location → Prop} {place next other : Location}

def Uncombined (lib : Library) : Prop :=
  ∀ place content keywords, lib.Contains place content →
    Store.keywordsOf place content = .ok keywords →
      keywords.allOf = none ∧ keywords.oneOf = none ∧ keywords.anyOf = none

/-- From an array schema to the schema of its items, where the references from `items` end. -/
inductive ItemsTo (lib : Library) : Location → Location → Prop
  | intro {place next : Location} {content : Json} {keywords : Keywords}
      (hcontent : lib.Contains place content)
      (hread : Store.keywordsOf place content = .ok keywords)
      (hplain : keywords.reference = none) (hshape : Shape.classify keywords = .ok .array)
      (htyped : untypedItems keywords = false)
      (hleads : ReflTransGen lib.Refers (place.below ["items"]) next)
      (hschema : lib.HasSchema next) : ItemsTo lib place next

theorem Contains.part {documents : List (String × Json)}
    (hdocuments : ∀ name content, lib name = .ok content → (name, content) ∈ documents)
    {content : Json} (h : lib.Contains place content) :
    ∃ document, (place.document, document) ∈ documents ∧ content ∈ document.parts := by
  obtain ⟨hdocument, hcontent⟩ := h
  exact ⟨_, hdocuments _ _ hdocument, (Json.sublist_lookup? hcontent).subset
    (Json.mem_parts_self _)⟩

def uncombined (value : Json) : Bool :=
  match Store.keywordsOf (.root "") value with
  | .ok keywords => keywords.allOf.isNone && keywords.oneOf.isNone && keywords.anyOf.isNone
  | .error _ => true

theorem uncombined_of_parts {documents : List (String × Json)}
    (hdocuments : ∀ name content, lib name = .ok content → (name, content) ∈ documents)
    (h : (documents.all fun document => document.2.parts.all uncombined) = true) :
    lib.Uncombined := by
  intro place content keywords hcontent hread
  obtain ⟨document, hdocument, hpart⟩ := hcontent.part hdocuments
  have hall := List.all_eq_true.mp (List.all_eq_true.mp h _ hdocument) content hpart
  unfold uncombined at hall
  rw [keywordsOf_anywhere hread] at hall
  simpa [and_assoc] using hall

theorem itemsTo_unique (h : lib.ItemsTo place next) (k : lib.ItemsTo place other) :
    next = other := by
  cases h with | intro _ _ _ _ _ hnext hschema
  cases k with | intro _ _ _ _ _ hother kschema
  exact hschema.final.unique kschema.final hnext hother

def leadsToItems (value : Json) : Bool :=
  match Store.keywordsOf (.root "") value with
  | .ok keywords =>
    (Shape.classify keywords).toOption == some .array && !untypedItems keywords
  | .error _ => false

theorem ItemsTo.leads (h : lib.ItemsTo place next) : ∃ content, lib.Contains place content ∧
    leadsToItems content = true ∧ ReflTransGen lib.Refers (place.below ["items"]) next ∧
      lib.HasSchema next := by
  obtain ⟨hcontent, hread, -, hshape, htyped, hleads, hschema⟩ := h
  refine ⟨_, hcontent, ?_, hleads, hschema⟩
  unfold leadsToItems
  rw [keywordsOf_anywhere hread]
  simp [hshape, htyped, Except.toOption]

theorem no_cycle_of_items (h : ∀ {a b c}, lib.ItemsTo a b → ¬ lib.ItemsTo b c) (place : Location) :
    ¬ TransGen lib.ItemsTo place place := by
  intro hcycle
  obtain ⟨next, hnext, hback⟩ := TransGen.head'_iff.mp hcycle
  rcases ReflTransGen.cases_head hback with rfl | ⟨last, hlast, -⟩
  · exact h hnext hnext
  · exact h hnext hlast

theorem Uncombined.anti {more : Library} (hsub : lib.Sub more) (h : more.Uncombined) :
    lib.Uncombined :=
  fun place content keywords hcontent => h place content keywords (hcontent.mono hsub)

theorem ItemsTo.mono {more : Library} (hsub : lib.Sub more) (h : lib.ItemsTo place next) :
    more.ItemsTo place next := by
  obtain ⟨hcontent, hread, hplain, hshape, htyped, hleads, hschema⟩ := h
  exact .intro (hcontent.mono hsub) hread hplain hshape htyped
    (ReflTransGen.mono (fun _ _ hrefers => hrefers.mono hsub) _ _ hleads) (hschema.mono hsub)

end Library

namespace Drafting

variable {ctx : Context} {lib : Library} {region : Location → Prop} {rule : Rule} {d e : Draft}
  {f : Nat} {id : NodeId} {request : Request} {trail row : List Location} {place : Location}

/-- Where the shape says something, there is an object, and the region has its location. -/
theorem Visits.inside (h : Visits ctx lib region d id) (hshape : (d.store.node id).shape ≠ .any) :
    region (d.store.node id).location := by
  have hread := h.faithful.read id h.has
  rcases Library.keywordsOf_cases hread.keywords with ⟨-, hkeywords⟩ | ⟨members, hcontent, -⟩
  · have hany := hread.shape
    rw [hkeywords] at hany
    exact absurd (Except.ok.inj hany).symm hshape
  · refine h.covered members ?_
    rw [← hcontent]
    exact h.contains

theorem Visits.uncombined (h : Visits ctx lib region d id) (hlib : lib.Uncombined) :
    (d.store.node id).shape ≠ .allOf ∧ (d.store.node id).shape ≠ .union := by
  have hread := h.faithful.read id h.has
  obtain ⟨hall, hone, hany⟩ := hlib _ _ _ h.contains hread.keywords
  refine ⟨fun hshape => ?_, fun hshape => ?_⟩
  · have hsome := (classify_allOf hread.shape).mp hshape
    rw [hall] at hsome
    cases hsome
  · have hsome := classify_union (hshape ▸ hread.shape)
    rw [hone, hany] at hsome
    cases hsome

theorem Visits.itemsTo (h : Visits ctx lib region d id) {found : Store.Child}
    (hshape : (d.store.node id).shape = .array)
    (htyped : untypedItems (d.store.node id).keywords = false)
    (hfound : d.store.Found id ["items"] found) :
    lib.ItemsTo (d.store.node id).location (d.store.node found.id).location := by
  have hread := h.faithful.read id h.has
  exact .intro h.contains hread.keywords hread.plain (hshape ▸ hread.shape) htyped
    (h.faithful.leads _ _ hfound.known)
    (h.faithful.hasSchema (hfound.has h.faithful.toSound))

theorem Visits.array_of_itemsTo (h : Visits ctx lib region d id) {next : Location}
    (hitems : lib.ItemsTo (d.store.node id).location next) :
    (d.store.node id).shape = .array := by
  have hread := h.faithful.read id h.has
  cases hitems with | intro hcontent kread _ hshape
  obtain rfl := Library.contains_unique h.contains hcontent
  obtain rfl := Except.ok.inj (hread.keywords.symm.trans kread)
  exact Except.ok.inj (hread.shape.symm.trans hshape)

theorem dispatchWith_completes (h : d.graph.typeAt? (d.store.node id).location = none →
    Completes (Onward ctx lib) (shapeRule ctx f rule (d.store.node id).shape request id) d
      fun _ _ => True) :
    Completes (Onward ctx lib) (dispatchWith ctx f rule request id) d fun _ _ => True := by
  cases htype : d.graph.typeAt? (d.store.node id).location with
  | some type => exact .of_repeats (dispatchWith_typed htype) trivial
  | none =>
    cases hname : library? (d.store.node id) with
    | some name => exact .of_repeats (dispatchWith_library htype hname) trivial
    | none => exact .of_run_eq (dispatchWith_shape htype hname) (h htype)

/-- A call for a location on the trail. The locations in the row came before it, each through the
items of the one below. -/
structure Rows (lib : Library) (d : Draft) (trail row : List Location) (place : Location) :
    Prop where
  known : place ∈ trail
  passed : ∀ other ∈ trail, (d.graph.typeAt? other).isSome = true ∨
    ∃ next ∈ trail, lib.ItemsTo other next
  nodup : row.Nodup
  inside : row ⊆ trail
  leads : ∀ other ∈ row, TransGen lib.ItemsTo other place

theorem Rows.push (h : Rows lib d trail row place) (hde : Onward ctx lib d e)
    (hcycle : ∀ other, ¬ TransGen lib.ItemsTo other other) {next : Location} (hnext : next ∈ trail)
    (hitems : lib.ItemsTo place next) : Rows lib e trail (place :: row) next where
  known := hnext
  passed other hother := (h.passed other hother).imp_left hde.typed
  nodup := List.nodup_cons.mpr ⟨fun hmem => hcycle place (h.leads place hmem), h.nodup⟩
  inside := List.cons_subset.mpr ⟨h.known, h.inside⟩
  leads := List.forall_mem_cons.mpr ⟨.single hitems, fun other hother =>
    (h.leads other hother).tail hitems⟩

theorem dispatch_rows (hclosed : lib.Closed region)
    (hcycle : ∀ other, ¬ TransGen lib.ItemsTo other other) :
    ∀ (fuel : Nat) (d : Draft) (request : Request) (id : NodeId) (row : List Location),
      Visits ctx lib region d id → Rows lib d trail row (d.store.node id).location →
        trail.length < fuel + row.length →
          Completes (Onward ctx lib) (dispatch ctx fuel request id) d fun _ _ => True := by
  intro fuel
  induction fuel with
  | zero =>
    intro d request id row _ hrow hlong
    have hle := (hrow.nodup.subperm hrow.inside).length_le
    omega
  | succ fuel ih =>
    intro d request id row h hrow hlong
    rw [dispatch]
    refine dispatchWith_completes fun huntyped => ?_
    obtain htyped | ⟨next, hnext, hitems⟩ := hrow.passed _ hrow.known
    · rw [huntyped] at htyped
      cases htyped
    have hshape := h.array_of_itemsTo hitems
    rw [hshape]
    refine arrayRule_completes hclosed h (fun e found inner hde hfound htyped hchild => ?_) request
    have hnode := hde.grows.node h.has
    have hfurther := (h.after hde).itemsTo (by rw [hnode, hshape]) htyped hchild
    rw [hnode] at hfurther
    obtain rfl := Library.itemsTo_unique hitems hfurther
    refine ih e inner found.id _ hfound (hrow.push hde hcycle hnext hitems) ?_
    rw [List.length_cons]
    omega

/-- The locations that a call is made inside. -/
structure Trail (lib : Library) (region : Location → Prop) (d : Draft) (trail : List Location)
    (place : Location) : Prop where
  nodup : trail.Nodup
  inside : ∀ other ∈ trail, region other
  passed : ∀ other ∈ trail, (d.graph.typeAt? other).isSome = true ∨
    ∃ next ∈ place :: trail, lib.ItemsTo other next

/-- The trail goes on from a new location that has its type, or through its items. -/
theorem Trail.push (h : Trail lib region d trail place) (hde : Onward ctx lib d e)
    (hnew : place ∉ trail) (hplace : region place) {next : Location}
    (hpassed : (e.graph.typeAt? place).isSome = true ∨ lib.ItemsTo place next) :
    Trail lib region e (place :: trail) next where
  nodup := List.nodup_cons.mpr ⟨hnew, h.nodup⟩
  inside := List.forall_mem_cons.mpr ⟨hplace, h.inside⟩
  passed := List.forall_mem_cons.mpr ⟨hpassed.imp_right fun hitems =>
    ⟨next, List.mem_cons_self, hitems⟩, fun other hother =>
      (h.passed other hother).imp hde.typed fun ⟨last, hlast, hitems⟩ =>
        ⟨last, List.mem_cons_of_mem next hlast, hitems⟩⟩

theorem Trail.rows (h : Trail lib region d trail place) (hknown : place ∈ trail) :
    Rows lib d trail [] place where
  known := hknown
  passed other hother := (h.passed other hother).imp_right fun ⟨next, hnext, hitems⟩ =>
    ⟨next, (List.mem_cons.mp hnext).elim (fun hsame => hsame ▸ hknown) fun hnext => hnext, hitems⟩
  nodup := List.nodup_nil
  inside := List.nil_subset trail
  leads _ hother := by cases hother

/-- Without members to merge, branches and arrays among their own items, a run comes to an end. A
trail without repetition is no longer than the region is large, and neither is the row that may
follow. -/
theorem dispatch_completes (hclosed : lib.Closed region) (hlib : lib.Uncombined)
    (hcycle : ∀ other, ¬ TransGen lib.ItemsTo other other) {n : Nat}
    (hregion : ∀ places : List Location, places.Nodup → (∀ other ∈ places, region other) →
      places.length ≤ n) :
    ∀ (fuel : Nat) (d : Draft) (request : Request) (id : NodeId) (trail : List Location),
      Visits ctx lib region d id → Trail lib region d trail (d.store.node id).location →
        2 * n + 1 < fuel + trail.length →
          Completes (Onward ctx lib) (dispatch ctx fuel request id) d fun _ _ => True := by
  intro fuel
  induction fuel with
  | zero =>
    intro d request id trail _ htrail hlong
    have hle := hregion trail htrail.nodup htrail.inside
    omega
  | succ fuel ih =>
    intro d request id trail h htrail hlong
    by_cases hknown : (d.store.node id).location ∈ trail
    · have hle := hregion trail htrail.nodup htrail.inside
      refine dispatch_rows hclosed hcycle (fuel + 1) d request id [] h (htrail.rows hknown) ?_
      rw [List.length_nil]
      omega
    rw [dispatch]
    refine dispatchWith_completes fun huntyped => ?_
    have hlength : 2 * n + 1 < fuel + ((d.store.node id).location :: trail).length := by
      rw [List.length_cons]
      omega
    obtain ⟨hallOf, hunion⟩ := h.uncombined hlib
    have hinside := h.inside
    cases hshape : (d.store.node id).shape with
    | allOf => exact absurd hshape hallOf
    | union => exact absurd hshape hunion
    | enumeration => exact enumRule_completes request id
    | object =>
      refine objectRule_completes hclosed h (fun e hde htyped => ?_) request
      intro t inner next het hnext
      have hdt : Onward ctx lib d t := IsTrans.trans _ _ _ hde het
      exact ih t inner next _ hnext
        (htrail.push hdt hknown (hinside (by simp [hshape])) (.inl (het.typed htyped))) hlength
    | array =>
      refine arrayRule_completes hclosed h
        (fun e found inner hde hfound htyped hchild => ?_) request
      have hnode := hde.grows.node h.has
      have hitems := (h.after hde).itemsTo (by rw [hnode, hshape]) htyped hchild
      rw [hnode] at hitems
      exact ih e inner found.id _ hfound
        (htrail.push hde hknown (hinside (by simp [hshape])) (.inr hitems)) hlength
    | primitive type => exact .after (a := d.store.node id) rfl (.pure trivial)
    | any => exact .pure trivial

def places (st : Store) : List Location := st.nodes.toList.map SchemaNode.location

theorem mem_places {st : Store} (hid : st.Has id) : (st.node id).location ∈ places st := by
  refine List.mem_map_of_mem ?_
  unfold Store.node
  rw [Array.getD_eq_getD_getElem?, Array.getElem?_eq_getElem hid, Option.getD_some]
  exact Array.getElem_mem_toList hid

theorem fetch_nothing (current : List String) (name : String) (content : Json) :
    Store.fetch ⟨current, []⟩ name ≠ .ok content := by
  have hread : ∀ path text, FileSystem.read ⟨current, []⟩ path ≠ .ok text := by
    intro path text h
    obtain ⟨place, -, h⟩ := ok_of_bind h
    have hentry : ∀ text, FileSystem.entry? ⟨current, []⟩ place ≠ some (.file text) := by
      intro text h
      unfold FileSystem.entry? at h
      split at h <;> cases h
    split at h
    · cases h
    · cases h
    · rename_i hfile
      exact hentry _ hfile
  intro h
  unfold Store.fetch at h
  dsimp only at h
  split at h
  · split at h
    · cases h
    · rename_i text htext
      exact hread _ _ htext
  · cases h

theorem mem_documents {files : FileSystem} {st : Store}
    (hmemory : ∀ name content, Store.fetch files name ≠ .ok content) {name : String}
    {content : Json} (h : st.library files name = .ok content) : (name, content) ∈
    st.documents := by
  unfold Store.library at h
  split at h
  · rename_i found hfound
    cases h
    exact Json.mem_of_lookup hfound
  · exact absurd h (hmemory name content)

theorem generate_completes (hmemory : ∀ name content, Store.fetch ctx.files name ≠ .ok content)
    (hd : d.store.Faithful ctx.files lib) (hlib : lib.Uncombined)
    (hcycle : ∀ other, ¬ TransGen lib.ItemsTo other other) (place : Location) :
    Completes (Onward ctx lib) (generate ctx place) d fun _ _ => True := by
  unfold generate
  refine (inStore_completes (Store.resolve_ends ctx.files d.store place)
    (Store.resolve_stays hd place) (Store.resolve_grows ctx.files place hd.toSound)).bind
      fun id e hde hid => ?_
  have he := hde.stays hd
  have hhas := he.bound hid
  refine Completes.after (a := e.store.node id) rfl (Completes.after (a := e) rfl ?_)
  have hdocuments : ∀ name content, lib name = .ok content → (name, content) ∈ e.store.documents :=
    fun name content h => mem_documents hmemory (by rw [he.library]; exact h)
  have hstarts : (places e.store).length ≤ e.store.nodes.size := by simp [places]
  refine dispatch_completes (Library.within_closed hdocuments (places e.store)) hlib hcycle
    (n := (places e.store ++ Library.targets e.store.documents).length *
      Library.objectsIn e.store.documents)
    (fun row hrow h => Library.length_le_of_within
      (fun _ _ hcontent => Library.objects_le hdocuments hcontent) hrow h) _ e _ id [] ?_ ?_ ?_
  · exact ⟨he, hhas, fun members hmembers =>
      Library.within_start (List.mem_append_left _ (mem_places hhas)) hmembers⟩
  · exact ⟨List.nodup_nil, List.forall_mem_nil _, List.forall_mem_nil _⟩
  · have hdepth := Store.twice_region_le ctx.files e.store hstarts
    rw [List.length_nil]
    unfold depth
    dsimp only
    omega

end Drafting

end SchemaBeans
