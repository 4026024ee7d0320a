import SchemaBeans.Proofs.Discriminator.Binding

/-! # The types that a type names

A type names others in the types of its members, as its supertypes and subtypes, and in its binding.
All of them exist, during a run and after the families were linked. -/
namespace SchemaBeans

variable {g h : TypeGraph} {decl : TypeDecl} {id parent child : TypeId}

/-- The generated types that a declaration names exist. -/
structure TypeDecl.Closed (decl : TypeDecl) (g : TypeGraph) : Prop where
  properties : ∀ property ∈ decl.properties, property.type.Valid g
  values : decl.enumValueType.Valid g
  extension : ∀ type, decl.additionalProperties = some type → type.Valid g
  supertype : ∀ type, decl.supertype = some type → type.Valid g
  interfaces : ∀ id ∈ decl.interfaces, g.Has id
  subtypes : ∀ id ∈ decl.subtypes, g.Has id
  binding : ∀ binding, decl.binding = some binding → ∀ child ∈ binding.children, g.Has child.1

def TypeGraph.Closed (g : TypeGraph) : Prop := ∀ id, (g.get id).Closed g

theorem TypeDecl.Closed.keeps (hd : decl.Closed g) (hk : g.Keeps h) : decl.Closed h where
  properties property hproperty := (hd.properties property hproperty).keeps hk
  values := hd.values.keeps hk
  extension type htype := (hd.extension type htype).keeps hk
  supertype type htype := (hd.supertype type htype).keeps hk
  interfaces id hid := hk.has (hd.interfaces id hid)
  subtypes id hid := hk.has (hd.subtypes id hid)
  binding binding hbinding child hchild := hk.has (hd.binding binding hbinding child hchild)

/-- A declaration that says nothing but its head names no type. -/
theorem TypeDecl.closed_of_head (hd : decl = decl.head) : decl.Closed g := by
  rw [hd]
  constructor
  case values => exact fun id hid => by cases hid
  all_goals exact fun _ h => by cases h

namespace TypeGraph.Closed

theorem update (hg : g.Closed) {change : TypeDecl → TypeDecl}
    (hhead : ∀ t, (change t).head = t.head) (hnested : ∀ t, (change t).nested = t.nested)
    (hchange : (change (g.get id)).Closed g) :
    (g.update id change).Closed := by
  have hkeeps := keeps_update g id hhead hnested
  intro other
  by_cases hother : other = id
  · subst hother
    by_cases hhas : g.Has other
    · rw [get_update_self hhas]
      exact hchange.keeps hkeeps
    · rw [get_of_not_has (by simpa using hhas)]
      exact TypeDecl.closed_of_head rfl
  · rw [get_update_ne hother]
    exact (hg other).keeps hkeeps

theorem insert (hg : g.Closed) (hd : decl = decl.head) : (g.insert decl).2.Closed := by
  intro other
  by_cases hhas : g.Has other
  · rw [get_insert_of_has hhas]
    exact { (hg other).keeps (keeps_insert g decl) with }
  · by_cases hnew : other = ⟨g.size⟩
    · rw [hnew, get_insert_self]
      exact TypeDecl.closed_of_head hd
    · rw [get_of_not_has fun h => (has_insert.mp h).elim hhas hnew]
      exact TypeDecl.closed_of_head rfl

theorem setSupertype (hg : g.Closed) (child : TypeId) {supertype : TypeRef}
    (hsuper : supertype.Valid g) :
    (g.update child fun d => { d with supertype := some supertype }).Closed := by
  refine hg.update (fun _ => rfl) (fun _ => rfl) { hg child with supertype := fun type htype => ?_ }
  cases htype
  exact hsuper

theorem addInterface (hg : g.Closed) (child : TypeId) (hparent : g.Has parent) :
    (g.update child fun d =>
      { d with interfaces := Family.addOnce parent d.interfaces }).Closed := by
  refine hg.update (fun _ => rfl) (fun _ => rfl) { hg child with interfaces := fun id hid => ?_ }
  rcases Drafting.mem_addOnce.mp hid with rfl | hold
  · exact hparent
  · exact (hg child).interfaces id hold

theorem addSubtype (hg : g.Closed) (parent : TypeId) (hchild : g.Has child) :
    (g.update parent fun d => { d with subtypes := Family.addOnce child d.subtypes }).Closed := by
  refine hg.update (fun _ => rfl) (fun _ => rfl) { hg parent with subtypes := fun id hid => ?_ }
  rcases Drafting.mem_addOnce.mp hid with rfl | hold
  · exact hchild
  · exact (hg parent).subtypes id hold

end TypeGraph.Closed

theorem TypeRef.valid_generated (h : g.Has id) : (TypeRef.generated id).Valid g := by
  intro other hother
  cases hother
  exact h

namespace Drafting

variable {ctx : Context} {base : Nat} {d e : Draft}

theorem closed_linkBranch (hg : g.Closed) (hparent : g.Has parent) (hchild : g.Has child)
    (kind : TypeKind) : (linkBranch g parent kind child).Closed := by
  unfold linkBranch
  dsimp only
  split
  · exact hg
  split
  · exact (hg.addInterface child hparent).addSubtype parent (by simpa using hchild)
  split
  · exact hg
  split
  · exact (hg.setSupertype child (TypeRef.valid_generated hparent)).addSubtype parent
      (by simpa using hchild)
  · split
    · exact hg.addSubtype parent hchild
    · exact hg

theorem Extendable.valid {supertype : TypeRef} (h : Extendable g child supertype) :
    supertype.Valid g := by
  cases h with
  | library name => exact fun id hid => by cases hid
  | generated hhas => exact TypeRef.valid_generated hhas

theorem Move.closed (h : Move ctx base d e) (hd : d.graph.Closed) : e.graph.Closed := by
  cases h with
  | schemas h =>
    rw [h.graph]
    exact hd
  | declare => exact hd.insert rfl
  | extend _ h => exact hd.setSupertype _ h.valid
  | @property type property _ _ hvalid =>
    refine hd.update (fun _ => rfl) (fun _ => rfl)
      { hd type with properties := fun other hother => ?_ }
    rcases List.mem_append.mp hother with hold | hnew
    · exact (hd type).properties other hold
    · rw [List.mem_singleton.mp hnew]
      exact hvalid
  | @additional type value _ hvalid =>
    refine hd.update (fun _ => rfl) (fun _ => rfl)
      { hd type with extension := fun other hother => ?_ }
    cases hother
    exact hvalid
  | @constants type _ _ _ hvalid =>
    exact hd.update (fun _ => rfl) (fun _ => rfl) { hd type with values := hvalid }
  | link hmarker hchild => exact closed_linkBranch hd hmarker hchild _
  | family => exact hd

theorem Leads.closed (h : Leads ctx base d e) (hd : d.graph.Closed) : e.graph.Closed := by
  induction h with
  | refl => exact hd
  | tail _ hm ih => exact hm.closed ih

theorem closed_empty : (({} : Draft).graph).Closed := by
  intro id
  rw [TypeGraph.get_of_not_has fun h => by simp [TypeGraph.Has, TypeGraph.size] at h]
  exact TypeDecl.closed_of_head rfl

end Drafting

namespace Family

theorem implicit_has (hg : g.Closed) (hid : id ∈ implicitChildren g parent) : g.Has id := by
  rcases List.mem_append.mp hid with hknown | hother
  · exact (hg parent).subtypes id hknown
  · exact TypeGraph.mem_ids.mp (List.mem_filter.mp hother).1

/-- A bound family has only types that exist. -/
theorem Binds.closed {family : Family} {b : Bond} (hb : family.Binds g b) (hg : g.Closed)
    (hvalid : family.Valid g) : (b.apply g).Closed := by
  have hparent : g.Has b.parent := hb.parent ▸ hvalid.parent
  have hkids : ∀ kid ∈ b.kids, g.Has kid :=
    fun kid => hb.has_kid hvalid fun _ => implicit_has hg
  intro id
  by_cases hid : g.Has id
  · have hchange : (b.change id (g.get id)).Closed g := by
      refine { hg id with supertype := ?_, interfaces := ?_, subtypes := ?_, binding := ?_ }
      · intro type htype
        simp only [Bond.change, placed] at htype
        split at htype
        · cases htype
          exact TypeRef.valid_generated hparent
        · exact (hg id).supertype type htype
      · intro other hother
        simp only [Bond.change, placed] at hother
        split at hother
        · rcases Drafting.mem_addOnce.mp hother with rfl | hold
          · exact hparent
          · exact (hg id).interfaces other hold
        · exact (hg id).interfaces other hother
      · intro other hother
        simp only [Bond.change, placed] at hother
        split at hother
        · rcases mem_foldl_addOnce.mp hother with hold | hkid
          · exact (hg id).subtypes other hold
          · exact hkids other hkid
        · exact (hg id).subtypes other hother
      · intro binding hbinding
        simp only [Bond.change] at hbinding
        split at hbinding
        · cases hbinding
          exact fun child hchild => hkids child.1 (List.mem_map_of_mem hchild)
        · exact (hg id).binding binding hbinding
    rw [Bond.get_apply hid]
    exact hchange.keeps (Bond.keeps_apply b g)
  · rw [TypeGraph.get_of_not_has (by simpa using hid)]
    exact TypeDecl.closed_of_head rfl

theorem bindAll_closed : ∀ {families : List Family} {g h : TypeGraph}, Drafting.Enrolled g →
    g.Closed → (∀ family ∈ families, family.Valid g) → bindAll g families = .ok h → h.Closed := by
  intro families
  induction families with
  | nil =>
    intro g h _ hg _ hbind
    cases hbind
    exact hg
  | cons family rest ih =>
    intro g h henrolled hg hvalid hbind
    unfold bindAll at hbind
    rw [List.foldlM_cons] at hbind
    obtain ⟨mid, hfirst, hbind⟩ := ok_of_bind hbind
    obtain ⟨b, hb, rfl⟩ := bind_iff.mp hfirst
    have hfamily := hvalid family List.mem_cons_self
    have hgains := hb.gains henrolled hfamily
    exact ih (hgains.enrolled henrolled) (hb.closed hg hfamily)
      (fun other hother => (hvalid other (List.mem_cons_of_mem _ hother)).keeps hgains.keeps) hbind

end Family

end SchemaBeans
