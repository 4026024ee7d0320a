import SchemaBeans.Proofs.Java.Independence

/-! # Files under other annotations

The switches for annotations, validation and documentation decide on headings and imports and on
nothing else. So two settings that differ in these switches alone give the files of a graph the same
code. -/
namespace SchemaBeans.Java

open Text (Unbroken)

variable {left right : Sheet}

theorem override_isMark : ∀ mark ∈ ["@Override"], IsMark mark := by
  rw [List.forall_mem_singleton]
  exact ⟨"Override", rfl, by decide⟩

section Derived

variable {indent : Nat} (hindent : 0 < indent) {name : String} (hname : Unbroken name)
  (inherits : Bool) {fields : List String} (hfields : ∀ field ∈ fields, Unbroken field)

include hindent hfields

theorem hashCodeMethod_corresponds : Corresponds (hashCodeMethod indent inherits fields)
    (hashCodeMethod indent inherits fields) := by
  refine method_corresponds hindent override_isMark override_isMark (by decide) ?_
  rw [List.forall_mem_singleton]
  refine .append ?_ (by decide)
  rw [Text.unbroken_append]
  refine ⟨by decide, .intercalate (by decide) fun text htext => ?_⟩
  rcases List.mem_append.mp htext with htext | htext
  · rw [List.mem_ite_nil_right, List.mem_singleton] at htext
    rw [htext.2]
    decide
  · obtain ⟨field, hfield, rfl⟩ := List.mem_map.mp htext
    exact Text.unbroken_append.mpr ⟨by decide, hfields field hfield⟩

include hname

theorem toStringMethod_corresponds : Corresponds (toStringMethod indent name inherits fields)
    (toStringMethod indent name inherits fields) := by
  refine method_corresponds hindent override_isMark override_isMark (by decide) ?_
  rw [List.forall_mem_singleton]
  refine .append ?_ (by decide)
  simp only [Text.unbroken_append]
  refine ⟨⟨⟨by decide, hname⟩, by decide⟩, .intercalate (by decide) fun text htext => ?_⟩
  obtain ⟨⟨⟨label, value⟩, i⟩, hpart, rfl⟩ := List.mem_map.mp htext
  have hmem := List.fst_mem_of_mem_zipIdx hpart
  have hboth : Unbroken label ∧ Unbroken value := by
    rcases List.mem_append.mp hmem with hmem | hmem
    · rw [List.mem_ite_nil_right, List.mem_singleton] at hmem
      cases hmem.2
      decide
    · obtain ⟨field, hfield, heq⟩ := List.mem_map.mp hmem
      cases heq
      exact ⟨hfields _ hfield, Text.unbroken_append.mpr ⟨by decide, hfields _ hfield⟩⟩
  simp only [Text.unbroken_append]
  exact ⟨⟨⟨⟨by decide, by split <;> decide⟩, hboth.1⟩, by decide⟩, hboth.2⟩

theorem equalsMethod_corresponds : Corresponds (equalsMethod indent name inherits fields)
    (equalsMethod indent name inherits fields) := by
  refine method_corresponds hindent override_isMark override_isMark (by decide) ?_
  have hheld : ∀ condition ∈ (if inherits then ["super.equals(rhs)"] else []) ++
      fields.map fun field => "Objects.equals(this." ++ field ++ ", rhs." ++ field ++ ")",
      Unbroken condition := by
    intro condition hcondition
    rcases List.mem_append.mp hcondition with hcondition | hcondition
    · rw [List.mem_ite_nil_right, List.mem_singleton] at hcondition
      rw [hcondition.2]
      decide
    · obtain ⟨field, hfield, rfl⟩ := List.mem_map.mp hcondition
      simp only [Text.unbroken_append]
      exact ⟨⟨⟨⟨by decide, hfields field hfield⟩, by decide⟩, hfields field hfield⟩, by decide⟩
  generalize (if inherits then ["super.equals(rhs)"] else []) ++
    fields.map (fun field => "Objects.equals(this." ++ field ++ ", rhs." ++ field ++ ")") =
      conditions at hheld ⊢
  have hcheck : Statement ("if (!(other instanceof " ++ name ++ ")) \x7b") :=
    .append (Text.unbroken_append.mpr ⟨by decide, hname⟩) (by decide)
  intro text htext
  rcases List.mem_append.mp htext with htext | htext
  · simp only [List.mem_cons, List.not_mem_nil, or_false] at htext
    rcases htext with rfl | rfl | rfl | rfl | rfl | rfl
    · decide
    · decide
    · decide
    · exact hcheck
    · decide
    · decide
  · split at htext
    · rw [List.mem_singleton.mp htext]
      decide
    · simp only [List.mem_cons, List.not_mem_nil, or_false] at htext
      rcases htext with rfl | rfl
      · refine .append ?_ (by decide)
        simp only [Text.unbroken_append]
        exact ⟨⟨hname, by decide⟩, hname⟩
      · refine .append ?_ (by decide)
        rw [Text.unbroken_append]
        exact ⟨by decide, .intercalate (by decide) hheld⟩

end Derived

section Twins

variable (h : left.Twins right) (id : TypeId) (indent : Nat)

include h

theorem derivedMembers_twins {indent : Nat} (hindent : 0 < indent) :
    Parallel (derivedMembers left indent (left.graph.get id))
      (derivedMembers right indent (left.graph.get id)) Corresponds := by
  have hname := (h.leftWhole.graph.get id).name
  have hfields : ∀ field ∈ comparedFields (left.graph.get id), Unbroken field := by
    intro field hfield
    rcases List.mem_append.mp hfield with hfield | hfield
    · obtain ⟨property, hproperty, rfl⟩ := List.mem_map.mp hfield
      exact (h.leftWhole.graph.get id).fields property hproperty
    · rw [List.mem_ite_nil_right, List.mem_singleton] at hfield
      rw [hfield.2]
      decide
  unfold derivedMembers
  rw [h.graph, h.shown, h.compared]
  generalize inheritsMembers left.graph (left.graph.get id) = inherits
  have hshown : Corresponds
      (if left.settings.includeToString then toStringMethod indent (left.graph.get id).name inherits
        (comparedFields (left.graph.get id)) else [])
      (if left.settings.includeToString then toStringMethod indent (left.graph.get id).name inherits
        (comparedFields (left.graph.get id)) else []) := by
    split
    · exact toStringMethod_corresponds hindent hname inherits hfields
    · exact .nil
  dsimp only
  split
  · refine .after fun _ _ => .pure (.append (.append hshown ?_) ?_)
    · exact hashCodeMethod_corresponds hindent inherits hfields
    · exact equalsMethod_corresponds hindent hname inherits hfields
  · exact .pure hshown

theorem supertypes_twins : Parallel (supertypes left (left.graph.get id))
    (supertypes right (left.graph.get id)) (Alike Unbroken) := by
  have htexts : right.typeText false = left.typeText false := funext (typeText_twins h false)
  refine .of_yields supertypes_yields supertypes_yields ?_
  rintro a b rfl rfl
  refine ⟨by rw [htexts, spelled_twins h], ?_⟩
  rw [Clauses.text, Text.unbroken_append]
  constructor
  · cases hsuper : (left.graph.get id).supertype with
    | none => exact (by decide : Unbroken "")
    | some supertype =>
      refine Text.unbroken_append.mpr ⟨by decide, unbroken_typeText h.leftWhole.graph false ?_⟩
      exact (h.leftWhole.graph.get id).libraries _ (by simp [TypeDecl.writtenTypes, hsuper])
  · dsimp only
    split
    · decide
    · refine Text.unbroken_append.mpr ⟨by decide, .intercalate (by decide) fun name hname => ?_⟩
      obtain ⟨parent, -, rfl⟩ := List.mem_map.mp hname
      exact h.leftWhole.graph.binaryName parent

omit h in
theorem head_append {before after : String} {c : Char} (hbefore : before.toList.head? = some c) :
    (before ++ after).toList.head? = some c := by
  rw [String.toList_append, List.head?_append, hbefore, Option.some_or]

omit h in
/-- The line that opens a declaration starts with a modifier, so it is no import. -/
theorem Statement.opens {text : String} (htext : Statement text)
    (hfirst : text.toList.head? = some 'p') (indent : Nat) : IsCode (line indent text) :=
  htext.isCode fun _ => by
    rw [hfirst]
    decide

theorem classLines_twins :
    Parallel (classLines left indent id) (classLines right indent id) Corresponds := by
  have hname := (h.leftWhole.graph.get id).name
  have hinner : 0 < indent + 1 := Nat.succ_pos indent
  have hopening : ∀ enclosing : Option TypeId,
      Unbroken (if enclosing.isSome then "public static class " else "public class ") ∧
      (if enclosing.isSome then "public static class " else "public class ").toList.head? =
        some 'p' := by
    intro enclosing
    split
    · decide
    · decide
  unfold classLines
  rw [h.graph]
  refine (heading_twins h indent _).bind fun marks others hmarks => ?_
  refine (supertypes_twins h id).bind_alike fun clauses hclauses => ?_
  refine (Parallel.mapM fun property hproperty =>
    fieldLines_twins h hinner (List.fst_mem_of_mem_zipIdx hproperty)).bind
      fun fields others hfields => ?_
  refine (extension?_twins h id).bind fun a b hextension => ?_
  have hopens : Corresponds
      [line indent ((if (left.graph.get id).enclosing.isSome then "public static class "
        else "public class ") ++ (left.graph.get id).name ++ clauses ++ " \x7b"), ""]
      [line indent ((if (left.graph.get id).enclosing.isSome then "public static class "
        else "public class ") ++ (left.graph.get id).name ++ clauses ++ " \x7b"), ""] := by
    obtain ⟨hwhole, hfirst⟩ := hopening (left.graph.get id).enclosing
    refine .of_code (List.forall_mem_cons.mpr ⟨?_, by simpa using isCode_empty⟩)
    refine Statement.opens (.append ?_ (by decide))
      (head_append (head_append (head_append hfirst))) indent
    simp only [Text.unbroken_append]
    exact ⟨⟨hwhole, hname⟩, hclauses⟩
  have haccessors : Parallel
      ((left.graph.get id).properties.mapM (accessors left (indent + 1) (left.graph.get id).name))
      ((left.graph.get id).properties.mapM (accessors right (indent + 1) (left.graph.get id).name))
      (List.Forall₂ Corresponds) :=
    .mapM fun property hproperty => accessors_twins h hinner hname hproperty
  have hderived := derivedMembers_twins h id hinner
  obtain ⟨rfl, rfl⟩ | ⟨e, f, rfl, rfl, hvalue, hunbroken⟩ := hextension.cases
  · simp only [pure_bind]
    refine haccessors.bind fun _ _ haccessors => hderived.bind fun _ _ hderived => .pure ?_
    exact (((((hmarks.append hopens).append (.flatten hfields)).append .nil).append
      (.flatten haccessors)).append .nil).append hderived
  · refine (extensionField_corresponds hinner hvalue hunbroken).bind fun _ _ hfield => ?_
    refine haccessors.bind fun _ _ haccessors => ?_
    refine (extensionAccessors_twins h hinner hname hvalue hunbroken).bind fun _ _ hextension => ?_
    refine hderived.bind fun _ _ hderived => .pure ?_
    exact (((((hmarks.append hopens).append (.flatten hfields)).append hfield).append
      (.flatten haccessors)).append hextension).append hderived

theorem constantLines_twins {indent : Nat} (hindent : 0 < indent) (type : TypeRef) (count : Nat)
    {constant : EnumConstant × Nat} (hconstant : constant.1 ∈ (left.graph.get id).constants) :
    Parallel (constantLines left indent id type count constant)
      (constantLines right indent id type count constant) Corresponds := by
  have hmarks := Parallel.of_yields (R := Corresponds)
    (annotations_hidden h.leftWhole.graph (h.leftWhole.directives (.constant id constant.2)) indent)
    (annotations_hidden h.rightWhole.graph
      (h.rightWhole.directives (.constant id constant.2)) indent)
    fun _ _ => .of_hidden
  have hname := (h.leftWhole.graph.get id).constants constant.1 hconstant
  have hterminator : Statement (if constant.2 + 1 = count then ";" else ",") := by
    split
    · decide
    · decide
  refine hmarks.bind fun _ _ hmarks => .pure (hmarks.append (.of_code ?_))
  rw [List.forall_mem_singleton]
  refine (Statement.append ?_ hterminator).inside hindent
  simp only [Text.unbroken_append]
  exact ⟨⟨⟨hname, by decide⟩, unbroken_enumLiteral _ _⟩, by decide⟩

omit h in
theorem marked_twins {c d : Prop} [Decidable c] [Decidable d] {name : String}
    (hname : Unbroken name) {f g : List String → Importing Lines}
    (hfg : ∀ marks others, (∀ mark ∈ marks, IsMark mark) → (∀ mark ∈ others, IsMark mark) →
      Parallel (f marks) (g others) Corresponds) :
    Parallel
      (if c then do let mark ← jackson name; let marks ← pure [mark]; f marks
        else do let marks ← pure []; f marks)
      (if d then do let mark ← jackson name; let marks ← pure [mark]; g marks
        else do let marks ← pure []; g marks) Corresponds := by
  have hmark : ∀ {p : Prop} [Decidable p] {k : List String → Importing Lines} before,
      ∃ marks after, (∀ mark ∈ marks, IsMark mark) ∧
        ((if p then do let mark ← jackson name; let marks ← pure [mark]; k marks
          else do let marks ← pure []; k marks).run before).1 = ((k marks).run after).1 := by
    intro p _ k before
    split
    · refine ⟨["@" ++ name], _, ?_, rfl⟩
      rw [List.forall_mem_singleton]
      exact ⟨name, rfl, hname⟩
    · exact ⟨[], before, nofun, rfl⟩
  intro before other
  obtain ⟨marks, after, hmarks, hleft⟩ := hmark (p := c) (k := f) before
  obtain ⟨others, afterOther, hothers, hright⟩ := hmark (p := d) (k := g) other
  rw [hleft, hright]
  exact hfg marks others hmarks hothers after afterOther

omit h in
/-- The lines in which an enum keeps its constants by value. -/
theorem lookup_isCode {inner : Nat} (hinner : 0 < inner) {name type : String}
    (hname : Unbroken name) (htype : Unbroken type) :
    ∀ l ∈ [line inner ("private final " ++ type ++ " value;"),
      line inner ("private static final Map" ++ ("<" ++ type ++ ", " ++ name ++ ">") ++
        " CONSTANTS = new HashMap" ++ ("<" ++ type ++ ", " ++ name ++ ">") ++ "();"),
      "",
      line inner "static \x7b",
      line (inner + 1) ("for (" ++ name ++ " c: values()) \x7b"),
      line (inner + 2) "CONSTANTS.put(c.value, c);",
      line (inner + 1) "\x7d",
      line inner "\x7d"], IsCode l := by
  have harguments : Unbroken ("<" ++ type ++ ", " ++ name ++ ">") := by
    simp only [Text.unbroken_append]
    exact ⟨⟨⟨⟨by decide, htype⟩, by decide⟩, hname⟩, by decide⟩
  have hclosing : Statement "\x7d" := by decide
  have hstatic : Statement "static \x7b" := by decide
  have hput : Statement "CONSTANTS.put(c.value, c);" := by decide
  have hvalue : Statement ("private final " ++ type ++ " value;") :=
    .append (Text.unbroken_append.mpr ⟨by decide, htype⟩) (by decide)
  have hloop : Statement ("for (" ++ name ++ " c: values()) \x7b") :=
    .append (Text.unbroken_append.mpr ⟨by decide, hname⟩) (by decide)
  have hmap : Statement ("private static final Map" ++ ("<" ++ type ++ ", " ++ name ++ ">") ++
      " CONSTANTS = new HashMap" ++ ("<" ++ type ++ ", " ++ name ++ ">") ++ "();") := by
    refine .append ?_ (by decide)
    rw [Text.unbroken_append, Text.unbroken_append, Text.unbroken_append]
    exact ⟨⟨⟨by decide, harguments⟩, by decide⟩, harguments⟩
  simp only [List.forall_mem_cons]
  exact ⟨hvalue.inside hinner, hmap.inside hinner, isCode_empty, hstatic.inside hinner,
    hloop.inside (Nat.succ_pos _), hput.inside (Nat.succ_pos _), hclosing.inside (Nat.succ_pos _),
    hclosing.inside hinner, List.forall_mem_nil _⟩

theorem enumLines_twins :
    Parallel (enumLines left indent id) (enumLines right indent id) Corresponds := by
  have hname := (h.leftWhole.graph.get id).name
  have hinner : 0 < indent + 1 := Nat.succ_pos indent
  have hliterals : ∀ name ∈ (left.graph.get id).enumValueType.library?, Unbroken name :=
    (h.leftWhole.graph.get id).libraries _ (by simp [TypeDecl.writtenTypes])
  unfold enumLines
  rw [h.graph]
  refine (heading_twins h indent _).bind fun marks others hmarks => ?_
  refine (typeName_twins h true hliterals).bind_alike fun type htype => ?_
  refine (Parallel.mapM fun constant hconstant => constantLines_twins h id hinner _ _
    (List.fst_mem_of_mem_zipIdx hconstant)).bind fun constants others hconstants => ?_
  refine .after fun _ _ => .after fun _ _ => ?_
  dsimp only
  refine marked_twins (by decide) fun value otherValue hvalue hotherValue => ?_
  refine marked_twins (by decide) fun creator otherCreator hcreator hotherCreator => .pure ?_
  refine .append (.append (.append (.append (.append (.append (.append (.append hmarks ?_) ?_)
    (.flatten hconstants)) ?_) ?_) ?_) ?_) ?_
  · refine .of_code (List.forall_mem_cons.mpr ⟨?_, by simpa using isCode_empty⟩)
    refine Statement.opens (.append ?_ (by decide))
      (head_append (head_append (by decide))) indent
    exact Text.unbroken_append.mpr ⟨by decide, hname⟩
  · have hempty : Statement ";" := by decide
    split
    · refine .of_code ?_
      rw [List.forall_mem_singleton]
      exact hempty.inside hinner
    · exact .nil
  · exact .of_code (lookup_isCode hinner hname htype)
  · refine method_corresponds hinner no_marks no_marks ?_ ?_
    · simp only [Text.unbroken_append]
      exact ⟨⟨⟨hname, by decide⟩, htype⟩, by decide⟩
    · rw [List.forall_mem_singleton]
      decide
  · refine method_corresponds hinner override_isMark override_isMark (by decide) ?_
    rw [List.forall_mem_singleton]
    decide
  · refine method_corresponds hinner hvalue hotherValue ?_ ?_
    · simp only [Text.unbroken_append]
      exact ⟨⟨by decide, htype⟩, by decide⟩
    · rw [List.forall_mem_singleton]
      decide
  · refine method_corresponds hinner hcreator hotherCreator ?_ ?_
    · simp only [Text.unbroken_append]
      exact ⟨⟨⟨⟨by decide, hname⟩, by decide⟩, htype⟩, by decide⟩
    · refine List.forall_mem_cons.mpr ⟨.append hname (by decide), ?_⟩
      simp only [List.forall_mem_cons]
      exact ⟨(by decide), (by decide), (by decide),
        (by decide), List.forall_mem_nil _⟩

theorem interfaceLines_twins :
    Parallel (interfaceLines left indent id) (interfaceLines right indent id) Corresponds := by
  unfold interfaceLines
  rw [h.graph]
  refine (heading_twins h indent _).bind fun _ _ hmarks => .pure (hmarks.append (.of_code ?_))
  rw [List.forall_mem_singleton]
  refine Statement.opens (.append ?_ (by decide))
    (head_append (head_append (by decide))) indent
  exact Text.unbroken_append.mpr ⟨by decide, (h.leftWhole.graph.get id).name⟩

theorem openLines_twins :
    Parallel (openLines left indent id) (openLines right indent id) Corresponds := by
  unfold openLines
  rw [h.graph]
  split
  · exact classLines_twins h id indent
  · exact enumLines_twins h id indent
  · exact interfaceLines_twins h id indent

theorem declarationLines_twins : ∀ (fuel indent : Nat) (id : TypeId),
    Parallel (declarationLines left fuel indent id) (declarationLines right fuel indent id)
      Corresponds := by
  intro fuel
  induction fuel with
  | zero => exact fun _ _ => .pure .nil
  | succ fuel ih =>
    intro indent id
    have hblank : Corresponds [""] [""] := .of_code (by simpa using isCode_empty)
    have hclosing : Corresponds [line indent "\x7d"] [line indent "\x7d"] := by
      have hstatement : Statement "\x7d" := by decide
      refine .of_code ?_
      rw [List.forall_mem_singleton]
      exact hstatement.isCode fun _ => by decide
    have hnested : ∀ {xs ys : List Lines}, List.Forall₂ Corresponds xs ys →
        Corresponds (xs.flatMap ("" :: ·)) (ys.flatMap ("" :: ·)) := by
      intro xs ys hlines
      induction hlines with
      | nil => exact .nil
      | cons hfirst _ ih =>
        rw [List.flatMap_cons, List.flatMap_cons]
        exact (hblank.append hfirst).append ih
    rw [declarationLines, declarationLines, h.graph]
    refine (openLines_twins h id indent).bind fun _ _ hopened => ?_
    refine (Parallel.mapM fun inner _ => ih (indent + 1) inner).bind fun _ _ hlines => .pure ?_
    exact (hopened.append (hnested hlines)).append hclosing

theorem contents_twins {package : String} (hpackage : Unbroken package) (top : TypeId)
    {a b : Lines} (hab : Corresponds a b) :
    code (contents package (left.imports top) a) =
    code (contents package (right.imports top) b) := by
  have himports : ∀ names : List String, (∀ name ∈ names, Unbroken name) →
      Hidden (if names.isEmpty then [] else names.map ("import " ++ · ++ ";") ++ [""]) := by
    intro names hnames
    split
    · exact .nil
    · rename_i hne
      exact hidden_imports (fun hnil => hne (hnil ▸ rfl)) hnames
  have hopening : Corresponds (if package.isEmpty then [] else ["package " ++ package ++ ";", ""])
      (if package.isEmpty then [] else ["package " ++ package ++ ";", ""]) := by
    split
    · exact .nil
    · have hstatement : Statement ("package " ++ package ++ ";") :=
        .append (Text.unbroken_append.mpr ⟨by decide, hpackage⟩) (by decide)
      have hcode := hstatement.opens (head_append (head_append (by decide))) 0
      refine .of_code (List.forall_mem_cons.mpr ⟨?_, by simpa using isCode_empty⟩)
      rwa [line_zero] at hcode
  refine Corresponds.code_eq (.append (.append hopening ?_) hab)
  exact .of_hidden (himports _ (unbroken_imports h.leftWhole.graph))
    (himports _ (unbroken_imports h.rightWhole.graph))

end Twins

open Decoration in
/-- The directives of the families write the values of bounds as numbers. -/
theorem unbroken_decorate (s : Settings) (g : TypeGraph) (target : Target) :
    ∀ directive ∈ (decorate s g).on target, directive.Unbroken := by
  intro directive hdirective
  by_cases hkind : directive.kind = .validation
  · have hamong : directive ∈ DirectiveKind.validation.among ((decorate s g).on target) :=
      List.mem_filter.mpr ⟨hdirective, decide_eq_true hkind⟩
    rw [DirectiveKind.among_decorate, Decorations.mem_on, DirectiveKind.attached] at hamong
    split at hamong
    · obtain ⟨id, -, hid⟩ := List.mem_flatMap.mp hamong
      obtain ⟨⟨property, i⟩, -, hproperty⟩ := List.mem_flatMap.mp hid
      obtain ⟨found, hfound, heq⟩ := List.mem_map.mp hproperty
      cases heq
      simp only [Decoration.validation, boundDirective, List.mem_append, List.mem_map,
        List.mem_ite_nil_right, List.mem_singleton] at hfound
      rcases hfound with
        ((((⟨bound, -, rfl⟩ | ⟨bound, -, rfl⟩) | ⟨-, rfl⟩) | ⟨_, -, rfl⟩) | ⟨-, rfl⟩) |
        ⟨-, rfl⟩
      · exact bound.value.unbroken_text
      · exact bound.value.unbroken_text
      all_goals trivial
    · cases hamong
  · cases directive with
    | decimalMin | decimalMax => exact absurd rfl hkind
    | _ => trivial

/-- Where a file stands, which type it is for, and its code. -/
def SourceFile.coded (file : SourceFile) : String × String × Lines :=
  (file.path, file.name, code file.contents)

end SchemaBeans.Java

namespace SchemaBeans

/-- The settings differ in the switches for annotations, type info, validation and documentation
at most. -/
def Settings.SameCode (s t : Settings) : Prop :=
  t = { s with
    annotationStyle := t.annotationStyle
    includeTypeInfo := t.includeTypeInfo
    includeJsr303Annotations := t.includeJsr303Annotations
    useJakartaValidation := t.useJakartaValidation
    includeDocumentation := t.includeDocumentation }

namespace Java

open Decoration

variable {g : TypeGraph} {s t : Settings}

theorem twins_decorate (hg : g.Unbroken) (hst : s.SameCode t) (package : String) :
    Sheet.Twins ⟨g, decorate s g, s, package⟩ ⟨g, decorate t g, t, package⟩ where
  leftWhole := ⟨hg, unbroken_decorate s g⟩
  rightWhole := ⟨hg, unbroken_decorate t g⟩
  graph := rfl
  builders := by rw [hst]
  collections := by rw [hst]
  shown := by rw [hst]
  compared := by rw [hst]

theorem sourceFile_contents (s : Settings) (g : TypeGraph) (d : Decorations) (id : TypeId) :
    (sourceFile s g d id).contents = contents (g.get id).package
      (Sheet.imports ⟨g, d, s, (g.get id).package⟩ id)
      ((declarationLines ⟨g, d, s, (g.get id).package⟩ (g.size + 1) 0 id).run []).1 := rfl

theorem sourceFile_coded (hg : g.Unbroken) (hst : s.SameCode t) (id : TypeId) :
    (sourceFile s g (decorate s g) id).coded = (sourceFile t g (decorate t g) id).coded := by
  have htwins := twins_decorate hg hst (g.get id).package
  have hlines := declarationLines_twins htwins (g.size + 1) 0 id [] []
  have hcode := contents_twins htwins (hg.get id).package id hlines
  rw [SourceFile.coded, SourceFile.coded, sourceFile_contents, sourceFile_contents, hcode]
  rfl

theorem sourceFiles_eq (s : Settings) (g : TypeGraph) (d : Decorations) :
    sourceFiles s g d = (g.topLevel.mergeSort fun a b =>
      Path.le (sourcePath (g.get a).package (g.get a).name)
        (sourcePath (g.get b).package (g.get b).name)).map (sourceFile s g d) :=
  (List.map_mergeSort (f := sourceFile s g d) fun _ _ _ _ => rfl).symm

/-- Settings that differ in the switches for annotations, type info, validation and documentation
alone give a graph the same files, each with the same code. -/
theorem code_independent (hg : g.Unbroken) (hst : s.SameCode t) :
    (sourceFiles s g (decorate s g)).map SourceFile.coded =
      (sourceFiles t g (decorate t g)).map SourceFile.coded := by
  rw [sourceFiles_eq, sourceFiles_eq, List.map_map, List.map_map]
  exact List.map_congr_left fun id _ => sourceFile_coded hg hst id

-- A name of bounded length, with documentation and the annotations of two libraries.
private def userGraph : TypeGraph :=
  { types := #[{
      package := "app", name := "User", description := some "Who logs in"
      properties := [
        { key := "user-name", name := "user_name", type := .string, required := true,
          constraints := { maxSize := some 20 } }] }] }

private def documented : Settings := { includeToString := false, includeHashcodeAndEquals := false }

private def checked : Settings :=
  { documented with
    annotationStyle := .gson, includeTypeInfo := false, includeJsr303Annotations := true
    useJakartaValidation := true, includeDocumentation := false }

private theorem userGraph_unbroken : userGraph.Unbroken := by
  intro decl hdecl
  rw [userGraph, List.mem_toArray, List.mem_singleton] at hdecl
  subst hdecl
  refine ⟨by decide, by decide, by decide, nofun, ?_⟩
  intro type htype name hname
  simp only [TypeDecl.writtenTypes, List.map_cons, List.map_nil, Option.toList_none,
    List.append_nil, List.cons_append, List.nil_append, List.mem_cons, List.not_mem_nil, or_false,
    or_self] at htype
  rw [htype] at hname
  cases hname

theorem code_independent_user :
    userGraph.Unbroken ∧ documented.SameCode checked ∧
      (decorate documented userGraph).on (.property ⟨0⟩ 0) =
        [.wireName .jackson2 "user-name", .requiredDoc] ∧
      (decorate checked userGraph).on (.property ⟨0⟩ 0) =
        [.wireName .gson "user-name", .expose, .size none (some 20), .notNull] ∧
      (sourceFiles documented userGraph (decorate documented userGraph)).map SourceFile.coded =
        (sourceFiles checked userGraph (decorate checked userGraph)).map SourceFile.coded :=
  ⟨userGraph_unbroken, rfl, by decide +kernel, by decide +kernel,
    code_independent userGraph_unbroken rfl⟩

end Java

end SchemaBeans
