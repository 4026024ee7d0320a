import Mathlib.Tactic.MkIffOfInductiveProp
import SchemaBeans.Proofs.Discriminator.Retention
import SchemaBeans.Proofs.Java.Members
import SchemaBeans.Proofs.Run.Names
import SchemaBeans.Proofs.Run.Types

/-! # The members of the classes of a run

Every class of a finished model is declared in the file of its outermost type. The names of its
fields come from its schema and are distinct, but nothing keeps them from the extension map, and
nothing keeps a getter from the name that stands in for the getter of every object. These are the
only clashes. -/
namespace SchemaBeans

/-- The file of the outermost type declares the class, with the members. -/
def Model.DeclaresClass (m : Model) (id : TypeId)
    (body : (m.sheet (m.graph.outermost id)).Body id) : Prop :=
  ∃ file ∈ m.sourceFiles, file.name = m.graph.qualifiedName (m.graph.outermost id) ∧
    ∃ lines, file.contents = Java.contents (m.graph.get (m.graph.outermost id)).package
        ((m.sheet (m.graph.outermost id)).imports (m.graph.outermost id)) lines ∧
      (m.sheet (m.graph.outermost id)).Declares id body lines

namespace Run

variable {ctx : Context} {d : Draft} {steps : List Step} {settings : Settings} {m : Model}
  {id : TypeId}

theorem finish_declares (h : Reaches ctx {} steps d) (hm : finish settings d = .ok m)
    (hid : m.graph.Has id) (hkind : (m.graph.get id).kind = .bean) :
    ∃ body, m.DeclaresClass id body := by
  obtain ⟨file, hfile, hname, fuel, hinside, hcontents⟩ := finish_inside h hm hid
  obtain ⟨body, hbody⟩ := @Java.declarationLines_declares (m.sheet _) id hkind fuel 0 _ hinside []
  exact ⟨body, file, hfile, hname, _, hcontents, hbody⟩

theorem finish_part {α : Type} (part : TypeDecl → α)
    (hpart : ∀ (b : Bond) (id : TypeId) (decl : TypeDecl), part (b.change id decl) = part decl)
    (hm : finish settings d = .ok m) (id : TypeId) :
    part (m.graph.get id) = part (d.graph.get id) := by
  unfold finish at hm
  obtain ⟨graph, hbind, hpure⟩ := ok_of_bind hm
  cases hpure
  exact Family.bindAll_part part hpart hbind id

theorem finish_populated (h : Succeeds ctx {} steps d) (hm : finish settings d = .ok m)
    (hid : m.graph.Has id) (hkind : (m.graph.get id).kind = .bean) :
    ∃ node, d.store.id? (m.graph.get id).place = some node ∧
      Drafting.Populated ctx d (Drafting.depth ctx d) node
        (Drafting.memberKeys (d.store.node node).keywords) (m.graph.get id).properties := by
  have hgains := finish_gains (h.reaches.consistent Drafting.consistent_empty) hm
  have hbefore : d.graph.Has id := by rwa [TypeGraph.Has, ← hgains.size]
  rw [finish_part (·.kind) (fun _ _ _ => rfl) hm] at hkind
  rw [finish_part (·.place) (fun _ _ _ => rfl) hm, finish_part (·.properties) (fun _ _ _ => rfl) hm]
  exact h.populated hbefore hkind

theorem finish_fields (h : Succeeds ctx {} steps d) (hm : finish settings d = .ok m)
    (hid : m.graph.Has id) (hkind : (m.graph.get id).kind = .bean) :
    (∀ p ∈ (m.graph.get id).properties, Names.IsField p.name) ∧
      ((m.graph.get id).properties.map Property.name).Nodup := by
  obtain ⟨node, -, hpopulated⟩ := finish_populated h hm hid hkind
  refine ⟨fun p hp => ?_, hpopulated.distinct⟩
  obtain ⟨found, -, heq, -⟩ := describes_of_populated hpopulated hp
  rw [heq]
  exact Drafting.isField_propertyOf _ _ _ _ _

section Body

variable (h : Succeeds ctx {} steps d) (hm : finish settings d = .ok m) (hid : m.graph.Has id)
  (hkind : (m.graph.get id).kind = .bean) (body : (m.sheet (m.graph.outermost id)).Body id)

include h hm hid hkind

theorem fields_nodup_iff :
    (body.fields.map Java.Field.name).Nodup ↔ ¬ Java.MapField (m.graph.get id) := by
  rw [body.names]
  exact Java.comparedFields_nodup_iff (finish_fields h hm hid hkind).2

theorem methods_nodup_iff : (body.methods.map Java.Method.key).Nodup ↔
    ¬ Java.ClassGetters (m.graph.get id) ∧ ¬ Java.MapGetter (m.graph.get id) := by
  obtain ⟨hfields, hnames⟩ := finish_fields h hm hid hkind
  rw [body.keys]
  exact Java.methodKeys_nodup_iff hfields hnames

end Body

/-- Every class of a finished model is declared in a file. Its fields are distinct unless a property
has the name of the extension map and there is such a map. Its methods are distinct unless the
getter of such a property meets that of the map, or the two fields that end in the word for a class
have getters that avoid the getter of every object in the same way. No method has the name of that
getter. -/
theorem members_distinct_iff (h : Succeeds ctx {} steps d) (hm : finish settings d = .ok m)
    (hid : m.graph.Has id) (hkind : (m.graph.get id).kind = .bean) :
    ∃ body, m.DeclaresClass id body ∧
      ((body.fields.map Java.Field.name).Nodup ↔ ¬ Java.MapField (m.graph.get id)) ∧
      ((body.methods.map Java.Method.key).Nodup ↔
        ¬ Java.ClassGetters (m.graph.get id) ∧ ¬ Java.MapGetter (m.graph.get id)) ∧
      ∀ method ∈ body.methods, method.name ≠ "getClass" := by
  obtain ⟨body, hbody⟩ := finish_declares h.reaches hm hid hkind
  refine ⟨body, hbody, fields_nodup_iff h hm hid hkind body, methods_nodup_iff h hm hid hkind body,
    fun method hmethod => ?_⟩
  exact Java.fst_ne_getClass_of_mem_methodKeys (body.keys ▸ List.mem_map_of_mem hmethod)

def singleContext : Context := ⟨{}, ⟨[], []⟩⟩

def singleSteps (schema : Json) : List Step :=
  [.register "mem:///a.json" schema, .generate (.root "mem:///a.json")]

def singleStart (schema : Json) : Draft :=
  { store := ({} : Store).register "mem:///a.json" schema }

def singleDraft (schema : Json) : Draft :=
  ((Step.generate (.root "mem:///a.json")).action singleContext |>.run (singleStart schema)).2

def singleModel (schema : Json) : Model :=
  ⟨(singleDraft schema).graph, Decoration.decorate {} (singleDraft schema).graph, {}⟩

/-- The run succeeds, and the first of its types is a class. -/
@[mk_iff] structure Single (schema : Json) : Prop where
  answer : ((Step.generate (.root "mem:///a.json")).action singleContext |>.run
    (singleStart schema)).1.toOption = some ()
  families : (singleDraft schema).families = []
  has : (singleModel schema).graph.Has ⟨0⟩
  kind : ((singleModel schema).graph.get ⟨0⟩).kind = .bean

namespace Single

variable {schema : Json}

instance : Decidable (Single schema) := decidable_of_iff _ (single_iff schema).symm

theorem succeeds (h : Single schema) :
    Succeeds singleContext {} (singleSteps schema) (singleDraft schema) :=
  .step rfl (.of_run _ h.answer (.done _))

theorem finishes (h : Single schema) :
    finish {} (singleDraft schema) = .ok (singleModel schema) := by
  rw [finish, h.families]
  rfl

end Single

-- A class with properties that are strings. Two of them end in the word for a class, or one has
-- the name of the extension map.
private def memberSchema (keys : List String) : Json :=
  .object [("type", .string "object"),
    ("properties", .object (keys.map fun key => (key, .object [("type", .string "string")])))]

private abbrev memberModel (keys : List String) : Model := singleModel (memberSchema keys)

@[mk_iff] private structure MemberOutcome (keys names : List String) : Prop where
  single : Single (memberSchema keys)
  names : ((memberModel keys).graph.get ⟨0⟩).properties.map Property.name = names
  types : ∀ p ∈ ((memberModel keys).graph.get ⟨0⟩).properties, p.type = .string
  extended : ((memberModel keys).graph.get ⟨0⟩).additionalProperties.isSome = true

private theorem member_outcome : MemberOutcome ["class", "id"] ["_class", "id"] ∧
    MemberOutcome ["class", "class_"] ["_class", "class_"] ∧
    MemberOutcome ["additionalProperties"] ["additionalProperties"] :=
  ⟨(memberOutcome_iff _ _).mpr (by decide +kernel), (memberOutcome_iff _ _).mpr (by decide +kernel),
    (memberOutcome_iff _ _).mpr (by decide +kernel)⟩

private theorem MemberOutcome.exists_property {keys names : List String}
    (h : MemberOutcome keys names) (name : String) (hname : name ∈ names) :
    ∃ p ∈ ((memberModel keys).graph.get ⟨0⟩).properties, p.name = name ∧
      p.type ≠ .scalar .boolean true := by
  rw [← h.names] at hname
  obtain ⟨p, hp, rfl⟩ := List.mem_map.mp hname
  refine ⟨p, hp, rfl, ?_⟩
  rw [h.types p hp]
  nofun

/-- A property named after the word for a class, and another one. -/
theorem members_distinct_word : ∃ body, (memberModel ["class", "id"]).DeclaresClass ⟨0⟩ body ∧
    (body.fields.map Java.Field.name).Nodup ∧ (body.methods.map Java.Method.key).Nodup := by
  obtain ⟨outcome, -, -⟩ := member_outcome
  have hname : ∀ p ∈ ((memberModel ["class", "id"]).graph.get ⟨0⟩).properties,
      p.name = "_class" ∨ p.name = "id" := by
    intro p hp
    have hmem := List.mem_map_of_mem (f := Property.name) hp
    rw [outcome.names] at hmem
    simpa using hmem
  obtain ⟨body, hbody, hfields, hmethods, -⟩ :=
    members_distinct_iff outcome.single.succeeds outcome.single.finishes outcome.single.has
      outcome.single.kind
  refine ⟨body, hbody, hfields.mpr ?_, hmethods.mpr ⟨?_, ?_⟩⟩
  · rintro ⟨-, p, hp, hmap⟩
    rcases hname p hp with h | h <;> exact absurd (h.symm.trans hmap) (by decide)
  · rintro ⟨-, -, q, hq, -, hclass, -⟩
    rcases hname q hq with h | h <;> exact absurd (h.symm.trans hclass) (by decide)
  · rintro ⟨-, p, hp, hmap, -⟩
    rcases hname p hp with h | h <;> exact absurd (h.symm.trans hmap) (by decide)

/-- The getters of `_class` and `class_` have one name, and so have a property and the extension
map, with their fields as well. -/
theorem members_clash :
    (∃ d body, Succeeds singleContext {} (singleSteps (memberSchema ["class", "class_"])) d ∧
      finish {} d = .ok (memberModel ["class", "class_"]) ∧
      (memberModel ["class", "class_"]).DeclaresClass ⟨0⟩ body ∧
      ¬ (body.methods.map Java.Method.key).Nodup) ∧
    ∃ d body, Succeeds singleContext {} (singleSteps (memberSchema ["additionalProperties"])) d ∧
      finish {} d = .ok (memberModel ["additionalProperties"]) ∧
      (memberModel ["additionalProperties"]).DeclaresClass ⟨0⟩ body ∧
      ¬ (body.fields.map Java.Field.name).Nodup ∧
      ¬ (body.methods.map Java.Method.key).Nodup := by
  obtain ⟨-, twins, named⟩ := member_outcome
  constructor
  · obtain ⟨hrun, hfinish⟩ := And.intro twins.single.succeeds twins.single.finishes
    obtain ⟨body, hbody⟩ :=
      finish_declares hrun.reaches hfinish twins.single.has twins.single.kind
    obtain ⟨p, hp, hpname, hptype⟩ := twins.exists_property "_class" (by decide)
    obtain ⟨q, hq, hqname, hqtype⟩ := twins.exists_property "class_" (by decide)
    refine ⟨_, body, hrun, hfinish, hbody, ?_⟩
    rw [methods_nodup_iff hrun hfinish twins.single.has twins.single.kind]
    exact fun h => h.1 ⟨p, hp, q, hq, hpname, hqname, hptype, hqtype⟩
  · obtain ⟨hrun, hfinish⟩ := And.intro named.single.succeeds named.single.finishes
    obtain ⟨body, hbody⟩ :=
      finish_declares hrun.reaches hfinish named.single.has named.single.kind
    obtain ⟨p, hp, hpname, hptype⟩ := named.exists_property _ (List.mem_singleton_self _)
    refine ⟨_, body, hrun, hfinish, hbody, ?_, ?_⟩
    · rw [fields_nodup_iff hrun hfinish named.single.has named.single.kind]
      exact not_not_intro ⟨named.extended, p, hp, hpname⟩
    · rw [methods_nodup_iff hrun hfinish named.single.has named.single.kind]
      exact fun h => h.2 ⟨named.extended, p, hp, hpname, hptype⟩

end Run

end SchemaBeans
