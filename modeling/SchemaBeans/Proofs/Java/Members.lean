import SchemaBeans.Proofs.Java.Accessors
import SchemaBeans.Proofs.Java.Headers

/-! # The members of a class

Below its header a class has a field for each property and one for the extension map, and then its
methods. Which methods these are, by name and number of parameters, its properties and the settings
tell. They are distinct unless two getters meet: those of the two fields that end in the word for a
class, or that of the extension map and of a field of its name. -/
namespace SchemaBeans.Java

variable {α β : Type} {sheet : Sheet} {id : TypeId}

/-- A field of a class, below its documentation and its annotations. -/
structure Field where
  above : Lines
  type : String
  name : String
  initializer : String

def Field.lines (indent : Nat) (f : Field) : Lines :=
  f.above ++ [line indent ("private " ++ f.type ++ " " ++ f.name ++ f.initializer ++ ";")]

structure Method where
  marks : List String
  result : String
  name : String
  parameters : List String
  body : List String

namespace Method

def signature (m : Method) : String :=
  m.result ++ " " ++ m.name ++ "(" ++ ", ".intercalate m.parameters ++ ")"

def lines (indent : Nat) (m : Method) : Lines := method indent m.marks m.signature m.body

/-- What tells the methods of a class apart that are not overloaded by the types of parameters. -/
def key (m : Method) : String × Nat := (m.name, m.parameters.length)

end Method

theorem Yields.mapM_forall₂ {f : α → Importing β} {R : α → β → Prop} {xs : List α}
    (h : ∀ a, Yields (f a) (R a)) : Yields (xs.mapM f) (List.Forall₂ R xs) := by
  induction xs with
  | nil => exact .pure .nil
  | cons x rest ih =>
    rw [List.mapM_cons]
    exact (h x).bind fun first hfirst => ih.bind fun others hothers =>
      .pure (.cons hfirst hothers)

/-- The lines are those of methods with the keys. -/
def Methods (indent : Nat) (keys : List (String × Nat)) (lines : Lines) : Prop :=
  ∃ methods : List Method,
    lines = methods.flatMap (Method.lines indent) ∧ methods.map Method.key = keys

namespace Methods

variable {indent : Nat} {keys others : List (String × Nat)} {lines more : Lines}

theorem nil : Methods indent [] [] := ⟨[], rfl, rfl⟩

theorem one (m : Method) {text : String} (h : text.toList = m.signature.toList) :
    Methods indent [m.key] (method indent m.marks text m.body) := by
  rw [String.toList_inj.mp h]
  exact ⟨[m], by simp [Method.lines], rfl⟩

theorem append (h : Methods indent keys lines) (hmore : Methods indent others more) :
    Methods indent (keys ++ others) (lines ++ more) := by
  obtain ⟨first, rfl, rfl⟩ := h
  obtain ⟨second, rfl, rfl⟩ := hmore
  exact ⟨first ++ second, List.flatMap_append.symm, List.map_append⟩

theorem flatten {keysOf : α → List (String × Nat)} {xs : List α} {pieces : List Lines}
    (h : List.Forall₂ (fun x piece => Methods indent (keysOf x) piece) xs pieces) :
    Methods indent (xs.flatMap keysOf) pieces.flatten := by
  induction h with
  | nil => exact nil
  | cons hfirst _ ih => exact hfirst.append ih

theorem optional {c : Prop} [Decidable c] (h : Methods indent keys lines) :
    Methods indent (if c then keys else []) (if c then lines else []) := by
  split
  · exact h
  · exact nil

end Methods

theorem accessors_yields (indent : Nat) (owner : String) (property : Property) :
    Yields (accessors sheet indent owner property)
      (Methods indent (accessorKeys sheet.settings property)) := by
  refine .after fun type => .pure ?_
  let field := property.name
  let suffix := accessorSuffix field
  let assignment := "this." ++ field ++ " = " ++ field ++ ";"
  refine .append (.append (.one ⟨[], "public " ++ type, getterName field property.type, [],
    ["return " ++ field ++ ";"]⟩ ?_) (.one ⟨[], "public void", "set" ++ suffix,
    [type ++ " " ++ field], [assignment]⟩ ?_)) (.optional (.one ⟨[], "public " ++ owner,
    "with" ++ suffix, [type ++ " " ++ field], [assignment, "return this;"]⟩ ?_))
  all_goals simp [Method.signature, field, suffix]

theorem extensionAccessors_yields (e : Extension) (indent : Nat) (owner : String) :
    Yields (e.accessors sheet indent owner) (Methods indent (extensionKeys sheet.settings)) := by
  refine .after fun getterMark => .after fun setterMark => .pure ?_
  let parameters := ["String name", e.value ++ " value"]
  let insertion := "this.additionalProperties.put(name, value);"
  refine .append (.append (.one ⟨getterMark, "public Map" ++ e.arguments,
    "getAdditionalProperties", [], ["return this.additionalProperties;"]⟩ ?_) (.one ⟨setterMark,
    "public void", "setAdditionalProperty", parameters, [insertion]⟩ ?_)) (.optional (.one ⟨[],
    "public " ++ owner, "withAdditionalProperty", parameters, [insertion, "return this;"]⟩ ?_))
  all_goals simp [Method.signature, parameters]

theorem derivedMembers_yields (indent : Nat) (decl : TypeDecl) :
    Yields (derivedMembers sheet indent decl) (Methods indent (derivedKeys sheet.settings)) := by
  have hshown : Methods indent (if sheet.settings.includeToString then [("toString", 0)] else [])
      (if sheet.settings.includeToString then toStringMethod indent decl.name
        (inheritsMembers sheet.graph decl) (comparedFields decl) else []) :=
    .optional (.one ⟨["@Override"], "public String", "toString", [], _⟩
      (by simp [Method.signature]))
  have hhash : Methods indent [("hashCode", 0)] (hashCodeMethod indent
      (inheritsMembers sheet.graph decl) (comparedFields decl)) :=
    .one ⟨["@Override"], "public int", "hashCode", [], _⟩ (by simp [Method.signature])
  have hequals : Methods indent [("equals", 1)] (equalsMethod indent decl.name
      (inheritsMembers sheet.graph decl) (comparedFields decl)) :=
    .one ⟨["@Override"], "public boolean", "equals", ["Object other"], _⟩
      (by simp [Method.signature])
  unfold derivedMembers derivedKeys
  extract_lets inherits fields shown
  split
  · refine .after fun _ => .pure ?_
    rw [List.append_assoc]
    exact hshown.append (hhash.append hequals)
  · refine .pure ?_
    rw [List.append_nil]
    exact hshown

/-- The field of a property. -/
structure Sheet.Holds (sheet : Sheet) (property : Property) (f : Field) : Prop where
  name : f.name = property.name
  type : f.type = sheet.typeText false property.type
  initializer : ∃ imported,
    f.initializer = ((initializer sheet property.type property.default).run imported).1

theorem fieldLines_yields (indent : Nat) (property : Property × Nat) :
    Yields (fieldLines sheet indent id property) fun lines =>
      ∃ f, sheet.Holds property.1 f ∧ lines = f.lines indent := by
  refine .after fun above => (typeName_yields false property.1.type).bind fun type htype =>
    (Yields.any _).bind fun initializer hinitializer => .pure ?_
  exact ⟨⟨above, type, property.1.name, initializer⟩, ⟨rfl, htype, hinitializer⟩, rfl⟩

/-- The fields and the methods of a class. -/
structure Sheet.Body (sheet : Sheet) (id : TypeId) where
  own : List Field
  extra : List Field
  methods : List Method
  holds : List.Forall₂ sheet.Holds (sheet.graph.get id).properties own
  named : extra.map Field.name =
    if (sheet.graph.get id).additionalProperties.isSome then ["additionalProperties"] else []
  keys : methods.map Method.key = methodKeys sheet.settings (sheet.graph.get id)

namespace Sheet.Body

def fields (b : sheet.Body id) : List Field := b.own ++ b.extra

def lines (indent : Nat) (b : sheet.Body id) : Lines :=
  b.fields.flatMap (Field.lines indent) ++ b.methods.flatMap (Method.lines indent)

theorem own_names (b : sheet.Body id) :
    b.own.map Field.name = (sheet.graph.get id).properties.map Property.name := by
  have hnames : ∀ {properties : List Property} {fields : List Field},
      List.Forall₂ sheet.Holds properties fields →
        fields.map Field.name = properties.map Property.name := by
    intro properties fields hall
    induction hall with
    | nil => rfl
    | cons hf _ ih => rw [List.map_cons, List.map_cons, hf.name, ih]
  exact hnames b.holds

theorem exists_field (b : sheet.Body id) {p : Property} (hp : p ∈ (sheet.graph.get id).properties) :
    ∃ f ∈ b.fields, sheet.Holds p f := by
  have hfield : ∀ {properties : List Property} {fields : List Field},
      List.Forall₂ sheet.Holds properties fields → p ∈ properties → ∃ f ∈ fields,
      sheet.Holds p f := by
    intro properties fields hall hp
    induction hall with
    | nil => cases hp
    | cons hf _ ih =>
      rcases List.mem_cons.mp hp with rfl | hp
      · exact ⟨_, List.mem_cons_self, hf⟩
      · obtain ⟨f, hmem, hheld⟩ := ih hp
        exact ⟨f, List.mem_cons_of_mem _ hmem, hheld⟩
  obtain ⟨f, hf, hheld⟩ := hfield b.holds hp
  exact ⟨f, List.mem_append_left _ hf, hheld⟩

theorem names (b : sheet.Body id) :
    b.fields.map Field.name = comparedFields (sheet.graph.get id) := by
  rw [fields, List.map_append, own_names, named, comparedFields]

end Sheet.Body

/-- The lines are a class, up to its nested declarations: its documentation and its annotations, its
header and its members. -/
def Sheet.Opens (sheet : Sheet) (id : TypeId) (indent : Nat) (body : sheet.Body id)
    (lines : Lines) :
    Prop :=
  ∃ marks imported, marks = ((heading sheet indent (.type id)).run imported).1 ∧
    lines = marks ++ [line indent (sheet.header id), ""] ++ body.lines (indent + 1)

theorem extension?_yields : Yields (extension? sheet id) fun found =>
    found.isSome = (sheet.graph.get id).additionalProperties.isSome := by
  unfold extension?
  split
  · rename_i h
    exact .pure (by rw [h]; rfl)
  · rename_i h
    exact .after fun _ => .after fun _ => .after fun _ => .pure (by rw [h]; rfl)

theorem extensionField_yields (e : Extension) (indent : Nat) :
    Yields (e.field indent) fun lines =>
      ∃ f : Field, f.name = "additionalProperties" ∧ lines = f.lines indent := by
  refine .after fun marks => .pure ⟨⟨marks.map (line indent), "Map" ++ e.arguments,
    "additionalProperties", " = new LinkedHashMap" ++ e.arguments ++ "()"⟩, rfl, ?_⟩
  refine congrArg (marks.map (line indent) ++ [line indent ·]) ?_
  rw [← String.toList_inj]
  simp

theorem exists_own {indent : Nat} {properties : List (Property × Nat)} {pieces : List Lines}
    (h : List.Forall₂ (fun property lines => ∃ f, sheet.Holds property.1 f ∧ lines = f.lines indent)
      properties pieces) :
    ∃ own, List.Forall₂ sheet.Holds (properties.map Prod.fst) own ∧
      pieces.flatten = own.flatMap (Field.lines indent) := by
  induction h with
  | nil => exact ⟨[], .nil, rfl⟩
  | cons hfirst _ ih =>
    obtain ⟨f, hf, rfl⟩ := hfirst
    obtain ⟨own, hown, hlines⟩ := ih
    exact ⟨f :: own, .cons hf hown, by rw [List.flatten_cons, hlines, List.flatMap_cons]⟩

theorem classLines_opens (hkind : (sheet.graph.get id).kind = .bean) (indent : Nat) :
    Yields (classLines sheet indent id) fun lines => ∃ body, sheet.Opens id indent body lines := by
  have hheader : ∀ text, text = Clauses.text ⟨(sheet.graph.get id).supertype.map
      (sheet.typeText false), (sheet.graph.get id).interfaces.map fun parent =>
        sheet.spelled (.generated parent)⟩ →
      (if (sheet.graph.get id).enclosing.isSome then "public static class " else "public class ") ++
        (sheet.graph.get id).name ++ text ++ " \x7b" = sheet.header id := by
    rintro text rfl
    rw [Sheet.header, opening, Sheet.clauses, hkind]
  have haccessors : Yields ((sheet.graph.get id).properties.mapM
      (accessors sheet (indent + 1) (sheet.graph.get id).name)) _ :=
    Yields.mapM_forall₂ fun property => accessors_yields (indent + 1) _ property
  unfold classLines
  refine (Yields.any _).bind fun marks hmarks => supertypes_yields.bind fun text htext =>
    (Yields.mapM_forall₂ fun property => fieldLines_yields (indent + 1) property).bind
      fun fields hfields => extension?_yields.bind fun extension hsome => ?_
  obtain ⟨imported, hmarks⟩ := hmarks
  rw [hheader text htext]
  obtain ⟨own, hown, hfields⟩ := exists_own hfields
  rw [List.zipIdx_map_fst] at hown
  -- The members of the extension map stand behind the fields and behind the accessors.
  have hclass : ∀ (extra : List Field) (accessors : List Lines) (extraMethods derived : Lines),
      extra.map Field.name = (if extension.isSome then ["additionalProperties"] else []) →
      List.Forall₂ (fun property lines => Methods (indent + 1)
        (accessorKeys sheet.settings property) lines) (sheet.graph.get id).properties accessors →
      Methods (indent + 1) (if extension.isSome then extensionKeys sheet.settings else [])
        extraMethods →
      Methods (indent + 1) (derivedKeys sheet.settings) derived →
      ∃ body, sheet.Opens id indent body (marks ++ [line indent (sheet.header id), ""] ++
        fields.flatten ++ extra.flatMap (Field.lines (indent + 1)) ++ accessors.flatten ++
        extraMethods ++ derived) := by
    intro extra accessors extraMethods derived hnamed hmethods hextension hderived
    obtain ⟨methods, hlines, hkeys⟩ :=
      ((Methods.flatten hmethods).append hextension).append hderived
    rw [hsome] at hnamed hkeys
    refine ⟨⟨own, extra, methods, hown, hnamed, hkeys⟩, marks, imported, hmarks, ?_⟩
    rw [hfields, Sheet.Body.lines, Sheet.Body.fields, ← hlines]
    simp only [List.append_assoc, List.flatMap_append]
  cases extension with
  | none =>
    simp only [pure_bind]
    exact haccessors.bind fun accessors hmethods => (derivedMembers_yields _ _).bind
      fun derived hderived => .pure (hclass [] accessors [] derived rfl hmethods .nil hderived)
  | some e =>
    refine (extensionField_yields e (indent + 1)).bind fun _ hfield => ?_
    obtain ⟨f, hname, hlines⟩ := hfield
    refine haccessors.bind fun accessors hmethods => ?_
    refine (extensionAccessors_yields e _ _).bind fun extraMethods hextension => ?_
    refine (derivedMembers_yields _ _).bind fun derived hderived => .pure ?_
    rw [hlines]
    simpa using hclass [f] accessors extraMethods derived (by simp [hname]) hmethods hextension
      hderived

/-- The lines hold the declaration of a class: what opens it, the declarations nested in it and a
brace, and nothing else. -/
def Sheet.Declares (sheet : Sheet) (id : TypeId) (body : sheet.Body id) (lines : Lines) : Prop :=
  ∃ indent before opened nested after, sheet.Opens id indent body opened ∧
    List.Forall₂ (fun inner piece => ∃ fuel imported,
      piece = ((declarationLines sheet fuel (indent + 1) inner).run imported).1)
      (sheet.graph.nested id) nested ∧
    lines = before ++ (opened ++ nested.flatMap ("" :: ·) ++ [line indent "\x7d"]) ++ after

theorem Sheet.Declares.within {body : sheet.Body id} {lines : Lines}
    (h : sheet.Declares id body lines) (ahead behind : Lines) :
    sheet.Declares id body (ahead ++ lines ++ behind) := by
  obtain ⟨indent, before, opened, nested, after, hopened, hnested, rfl⟩ := h
  exact ⟨indent, ahead ++ before, opened, nested, after ++ behind, hopened, hnested, by simp⟩

theorem Yields.mapM_exists {f : α → Importing β} {P : β → Prop} {xs : List α} {x : α}
    (hx : x ∈ xs) (h : Yields (f x) P) :
    Yields (xs.mapM f) fun ys => ∃ before y after, ys = before ++ y :: after ∧ P y := by
  obtain ⟨before, after, rfl⟩ := List.append_of_mem hx
  rw [List.mapM_append, List.mapM_cons]
  refine .after fun first => ?_
  simp only [bind_assoc, pure_bind]
  exact h.bind fun y hy => .after fun others => .pure ⟨first, y, others, rfl, hy⟩

theorem declarationLines_declares (hkind : (sheet.graph.get id).kind = .bean) :
    ∀ (fuel indent : Nat) (top : TypeId), id ∈ sheet.graph.inside fuel top →
      Yields (declarationLines sheet fuel indent top) fun lines =>
        ∃ body, sheet.Declares id body lines := by
  intro fuel
  induction fuel with
  | zero => exact fun _ _ h => absurd h List.not_mem_nil
  | succ fuel ih =>
    intro indent top h
    rw [TypeGraph.inside, List.mem_cons] at h
    rcases h with rfl | h
    · have hopen : openLines sheet indent id = classLines sheet indent id := by
        rw [openLines, hkind]
      rw [declarationLines, hopen]
      refine (classLines_opens hkind indent).bind fun opened hopened =>
        (Yields.mapM_forall₂ fun inner => .any _).bind fun nested hnested => .pure ?_
      obtain ⟨body, hbody⟩ := hopened
      refine ⟨body, indent, [], opened, nested, [], hbody, ?_, by simp⟩
      refine hnested.imp fun _ _ hpiece => ?_
      obtain ⟨imported, hpiece⟩ := hpiece
      exact ⟨fuel, imported, hpiece⟩
    · obtain ⟨inner, hinner, hinside⟩ := List.mem_flatMap.mp h
      rw [declarationLines]
      refine .after fun opened =>
        (Yields.mapM_exists hinner (ih (indent + 1) inner hinside)).bind fun nested hnested => ?_
      obtain ⟨before, piece, after, rfl, body, hbody⟩ := hnested
      refine .pure ⟨body, ?_⟩
      have hwithin := hbody.within (opened ++ before.flatMap ("" :: ·) ++ [""])
        (after.flatMap ("" :: ·) ++ [line indent "\x7d"])
      simpa using hwithin

end SchemaBeans.Java
