import SchemaBeans.Proofs.Decoration.Families
import SchemaBeans.Proofs.Java.Code
import SchemaBeans.Proofs.Java.Files
import SchemaBeans.Proofs.Java.Headers
import SchemaBeans.Proofs.Text.Case

/-! # Names that break no line

Where no name of a graph holds a line break, no piece of source does: numbers are digits and
signs, and the text of schemas is escaped in string literals and cut into lines in documentation.
So a declaration is written line by line, and its headings and its imports leave no code. -/
namespace SchemaBeans

namespace Text

theorem unbroken_nat (n : Nat) : Unbroken (toString n) := by
  rw [Unbroken, Nat.toString_eq_repr, Nat.repr_eq_ofList_toDigits, String.toList_ofList]
  intro h
  exact absurd (Nat.isDigit_of_mem_toDigits (by decide) (by decide) h) (by decide)

theorem unbroken_int (n : Int) : Unbroken (toString n) := by
  cases n with
  | ofNat m => exact unbroken_nat m
  | negSucc m => exact unbroken_append.mpr ⟨by decide, unbroken_nat (m + 1)⟩

end Text

open Text (Unbroken)

theorem Binary64.Layout.unbroken_positive {layout : Binary64.Layout} (h : Unbroken layout.whole)
    (d : Binary64.Decimal) : Unbroken (layout.positive d) := by
  have hdigits : '\n' ∉ (toString d.digits).toList := Text.unbroken_nat d.digits
  have hzeros : ∀ n, '\n' ∉ List.replicate n '0' := fun n hmem => by
    cases (List.mem_replicate.mp hmem).2
  unfold Binary64.Layout.positive
  dsimp only
  generalize (toString d.digits).toList = digits at hdigits
  split
  · split
    · rw [Text.unbroken_append]
      refine ⟨.ofList ?_, h⟩
      rw [List.mem_append, not_or]
      exact ⟨hdigits, hzeros _⟩
    · split
      · refine .ofList ?_
        simp only [List.mem_append, List.mem_cons, not_or]
        exact ⟨fun hmem => hdigits (List.mem_of_mem_take hmem), by decide,
          fun hmem => hdigits (List.mem_of_mem_drop hmem)⟩
      · refine .ofList ?_
        simp only [List.mem_append, List.mem_cons, not_or]
        exact ⟨⟨by decide, by decide, hzeros _⟩, hdigits⟩
  · simp only [Text.unbroken_append]
    refine ⟨⟨⟨.ofList ?_, by decide⟩, by split <;> decide⟩, Text.unbroken_nat _⟩
    split
    · simp only [List.mem_cons, not_or] at hdigits ⊢
      exact ⟨hdigits.1, by decide, hdigits.2⟩
    · exact hdigits

theorem JsonNumber.unbroken_text (n : JsonNumber) : Unbroken n.text := by
  cases n with
  | integer n => exact Text.unbroken_int n
  | float x =>
    cases x with
    | finite s m e =>
      have hbody : Unbroken (if m = 0 then "0" ++ layout.whole
          else layout.positive (Binary64.shortest m e)) := by
        split
        · decide
        · exact Binary64.Layout.unbroken_positive (by decide) _
      show Unbroken (if s then "-" ++ _ else _)
      split
      · exact Text.unbroken_append.mpr ⟨by decide, hbody⟩
      · exact hbody
    | infinite s => cases s <;> decide
    | nan => decide

namespace Java

theorem newline_not_mem_upper {c : Char} (h : c ≠ '\n') : '\n' ∉ Text.upper c := by
  have hexpansions : ∀ entry ∈ Text.upperExpansions, '\n' ∉ entry.2.map Char.ofNat := by
    decide +kernel
  have hruns : ∀ run ∈ Text.upperRuns, 10 < (run.first : Int) + run.shift := by decide +kernel
  intro hmem
  rcases Text.mem_otherForm hmem with
    ⟨entry, hentry, hnewline⟩ | ⟨run, hrun, hin, hnewline⟩ | ⟨-, rfl⟩
  · exact hexpansions entry hentry hnewline
  · have hcode : (Char.ofNat (c.toNat + run.shift).toNat).toNat = 10 := hnewline ▸ rfl
    have hshift := hruns run hrun
    rw [Text.toNat_ofNat_of_pos (by omega)] at hcode
    simp only [Text.CaseRun.contains, Bool.and_eq_true, decide_eq_true_eq] at hin
    omega
  · exact h rfl

theorem unbroken_capitalize {name : String} (h : Unbroken name) :
    Unbroken (Names.capitalize name) := by
  refine .ofList ?_
  unfold Unbroken at h
  cases hname : name.toList with
  | nil => exact List.not_mem_nil
  | cons first rest =>
    rw [hname, List.mem_cons, not_or] at h
    rw [Names.recase, List.mem_append, not_or]
    exact ⟨newline_not_mem_upper (Ne.symm h.1), h.2⟩

theorem unbroken_accessorSuffix {field : String} (h : Unbroken field) :
    Unbroken (accessorSuffix field) := by
  have hcapitalize := unbroken_capitalize h
  unfold accessorSuffix
  split
  · rename_i rest hfield
    dsimp only
    split
    · refine unbroken_capitalize (.ofList fun hmem => h ?_)
      rw [hfield]
      exact List.mem_cons_of_mem _ hmem
    · exact hcapitalize
  · exact hcapitalize

theorem unbroken_getterName {field : String} (h : Unbroken field) (type : TypeRef) :
    Unbroken (getterName field type) := by
  have hverb : Unbroken (if type = .scalar .boolean true then "is" else "get") := by
    split
    · decide
    · decide
  unfold getterName
  extract_lets verb name
  split
  · decide
  · exact Text.unbroken_append.mpr ⟨hverb, unbroken_accessorSuffix h⟩

theorem unbroken_stringLiteral (text : String) : Unbroken (stringLiteral text) := by
  have hescape : Unbroken (escape text) := by
    refine .ofList fun hmem => ?_
    obtain ⟨c, -, hc⟩ := List.mem_flatMap.mp hmem
    unfold escapedChar at hc
    split_ifs at hc with h1 h2 h3 h4 h5
    all_goals simp at hc
    exact h3 hc.symm
  simpa [stringLiteral] using ⟨⟨by decide, hescape⟩, by decide⟩

theorem unbroken_bool (b : Bool) : Unbroken (Json.bool b).text := by
  cases b <;> decide

theorem unbroken_enumLiteral (type : TypeRef) (value : Json) :
    Unbroken (enumLiteral type value) := by
  unfold enumLiteral
  split
  · exact Text.unbroken_append.mpr ⟨JsonNumber.unbroken_text _, by decide⟩
  · exact Text.unbroken_append.mpr ⟨JsonNumber.unbroken_text _, by decide⟩
  · exact JsonNumber.unbroken_text _
  · exact unbroken_bool _
  · exact unbroken_stringLiteral _

theorem unbroken_scalarLiteral? (scalar : Scalar) (value : Json) :
    ∀ text ∈ scalarLiteral? scalar value, Unbroken text := by
  intro text htext
  unfold scalarLiteral? at htext
  split at htext
  · cases htext
    exact unbroken_bool _
  · obtain ⟨n, -, rfl⟩ := Option.map_eq_some_iff.mp htext
    exact Text.unbroken_int n
  · obtain ⟨n, -, rfl⟩ := Option.map_eq_some_iff.mp htext
    exact Text.unbroken_append.mpr ⟨Text.unbroken_int n, by decide⟩
  · cases htext
    exact Text.unbroken_append.mpr ⟨JsonNumber.unbroken_text _, by decide⟩
  · cases htext
    exact Text.unbroken_append.mpr ⟨JsonNumber.unbroken_text _, by decide⟩
  · cases htext

theorem unbroken_libraryLiteral? (name : String) {simple : String} (hsimple : Unbroken simple)
    (value : String) : ∀ text ∈ libraryLiteral? name simple value, Unbroken text := by
  intro text htext
  unfold libraryLiteral? at htext
  have hliteral := unbroken_stringLiteral value
  have hconstructor : Unbroken ("new " ++ simple ++ "(" ++ stringLiteral value ++ ")") := by
    simp only [Text.unbroken_append]
    exact ⟨⟨⟨⟨by decide, hsimple⟩, by decide⟩, hliteral⟩, by decide⟩
  have hmethod : ∀ method, Unbroken method →
      Unbroken (simple ++ method ++ stringLiteral value ++ ")") := by
    intro method hname
    simp only [Text.unbroken_append]
    exact ⟨⟨⟨hsimple, hname⟩, hliteral⟩, by decide⟩
  split at htext
  · obtain ⟨n, -, rfl⟩ := Option.map_eq_some_iff.mp htext
    simp only [Text.unbroken_append]
    exact ⟨⟨⟨⟨by decide, hsimple⟩, by decide⟩, Text.unbroken_int n⟩, by decide⟩
  · cases htext
    exact hconstructor
  · cases htext
    exact hconstructor
  · cases htext
    exact hmethod ".create(" (by decide)
  · cases htext
    exact hmethod ".fromString(" (by decide)
  · cases htext

/-- An annotation in one line. -/
def IsMark (text : String) : Prop := ∃ rest, text = "@" ++ rest ∧ Unbroken rest

theorem IsMark.append {text more : String} (h : IsMark text) (hmore : Unbroken more) :
    IsMark (text ++ more) := by
  obtain ⟨rest, rfl, hrest⟩ := h
  exact ⟨rest ++ more, String.append_assoc .., Text.unbroken_append.mpr ⟨hrest, hmore⟩⟩

theorem hidden_marks {marks : List String} (h : ∀ mark ∈ marks, IsMark mark) (indent : Nat) :
    Hidden (marks.map (line indent)) := by
  refine .of_forall fun l hl => ?_
  obtain ⟨mark, hmark, rfl⟩ := List.mem_map.mp hl
  obtain ⟨rest, rfl, hrest⟩ := h mark hmark
  exact hidden_annotation hrest

end Java

/-- The library class that a type is written with, in collections too. -/
def TypeRef.library? : TypeRef → Option String
  | .library name => some name
  | .list element => element.library?
  | .set element => element.library?
  | .any | .string | .scalar _ _ | .generated _ => none

/-- The types that are written in a declaration, besides the interfaces of a class. -/
def TypeDecl.writtenTypes (decl : TypeDecl) : List TypeRef :=
  decl.properties.map (·.type) ++ decl.supertype.toList ++ decl.additionalProperties.toList ++
    [decl.enumValueType]

/-- No name that is written in a declaration breaks a line. -/
structure TypeDecl.Unbroken (decl : TypeDecl) : Prop where
  package : Text.Unbroken decl.package
  name : Text.Unbroken decl.name
  fields : ∀ property ∈ decl.properties, Text.Unbroken property.name
  constants : ∀ constant ∈ decl.constants, Text.Unbroken constant.name
  libraries : ∀ type ∈ decl.writtenTypes, ∀ name ∈ type.library?, Text.Unbroken name

theorem TypeDecl.unbroken_empty : TypeDecl.Unbroken {} where
  package := (by decide : Text.Unbroken "")
  name := (by decide : Text.Unbroken "")
  fields _ h := absurd h List.not_mem_nil
  constants _ h := absurd h List.not_mem_nil
  libraries type htype name hname := by
    obtain rfl : type = .string := by simpa [TypeDecl.writtenTypes] using htype
    cases hname

def TypeGraph.Unbroken (g : TypeGraph) : Prop := ∀ decl ∈ g.types, decl.Unbroken

namespace TypeGraph.Unbroken

variable {g : TypeGraph} {id : TypeId}

theorem get (hg : g.Unbroken) (id : TypeId) : (g.get id).Unbroken := by
  unfold TypeGraph.get
  rw [Array.getD_eq_getD_getElem?]
  cases hget : g.types[id.index]? with
  | some decl => exact hg decl (Array.mem_of_getElem? hget)
  | none => exact TypeDecl.unbroken_empty

theorem binaryName (hg : g.Unbroken) (id : TypeId) : Text.Unbroken (g.binaryName id) := by
  refine .intercalate (by decide) fun name hname => ?_
  obtain ⟨outer, -, rfl⟩ := List.mem_map.mp hname
  exact (hg.get outer).name

theorem qualifiedName (hg : g.Unbroken) (id : TypeId) : Text.Unbroken (g.qualifiedName id) := by
  unfold TypeGraph.qualifiedName TypeGraph.inPackage
  split
  · exact hg.binaryName id
  · simp only [Text.unbroken_append]
    exact ⟨⟨(hg.get id).package, by decide⟩, hg.binaryName id⟩

end TypeGraph.Unbroken

/-- The values that are written as they are break no line. -/
def Directive.Unbroken : Directive → Prop
  | .decimalMin value _ | .decimalMax value _ => Text.Unbroken value
  | _ => True

namespace Java

variable {sheet : Sheet} {type : TypeRef}

theorem unbroken_simpleName {name : String} (h : Unbroken name) : Unbroken (simpleName name) := by
  unfold simpleName
  split
  · rename_i before simple hcut
    refine .ofList fun hmem => h ?_
    rw [(Text.cutLast_eq_some.mp hcut).1]
    simp [hmem]
  · exact h

theorem unbroken_typeText (hg : sheet.graph.Unbroken) (boxed : Bool)
    (h : ∀ name ∈ type.library?, Unbroken name) : Unbroken (sheet.typeText boxed type) := by
  induction type generalizing boxed with
  | any => exact (by decide : Unbroken "Object")
  | string => exact (by decide : Unbroken "String")
  | scalar scalar primitive =>
    have hnames : ∀ scalar primitive, Unbroken (scalarName scalar primitive) := by
      intro scalar primitive
      cases scalar <;> cases primitive <;> decide
    exact hnames _ _
  | library name =>
    have hname := h name rfl
    rw [Sheet.typeText, Sheet.spelled]
    split
    · exact hname
    · exact unbroken_simpleName hname
  | generated id => exact hg.binaryName id
  | list element ih | set element ih =>
    simp only [Sheet.typeText, Text.unbroken_append]
    exact ⟨⟨by decide, ih true h⟩, by decide⟩

/-- No name and no value that is written breaks a line. -/
structure Sheet.Unbroken (sheet : Sheet) : Prop where
  graph : sheet.graph.Unbroken
  directives : ∀ target, ∀ directive ∈ sheet.decorations.on target, directive.Unbroken

theorem Yields.mapM_forall {α β : Type} {f : α → Importing β} {P : β → Prop} {xs : List α}
    (h : ∀ a ∈ xs, Yields (f a) P) : Yields (xs.mapM f) fun ys => ∀ y ∈ ys, P y := by
  induction xs with
  | nil => exact .pure fun _ hy => absurd hy List.not_mem_nil
  | cons x rest ih =>
    rw [List.mapM_cons]
    refine (h x List.mem_cons_self).bind fun first hfirst => ?_
    refine (ih fun a ha => h a (List.mem_cons_of_mem _ ha)).bind fun others hothers => .pure ?_
    exact List.forall_mem_cons.mpr ⟨hfirst, hothers⟩

theorem jackson_isMark {name : String} (h : Unbroken name) : Yields (jackson name) IsMark :=
  .after fun _ => .pure ⟨name, rfl, h⟩

theorem validation_isMark {name : String} (h : Unbroken name) :
    Yields (validation sheet name) IsMark :=
  .after fun _ => .pure ⟨name, rfl, h⟩

theorem unbroken_quoted (text : String) : Unbroken (quoted text) := by
  simp only [quoted, Text.unbroken_append]
  exact ⟨⟨by decide, unbroken_stringLiteral text⟩, by decide⟩

theorem unbroken_braced {items : List String} (h : ∀ item ∈ items, Unbroken item) :
    Unbroken (braced items) := by
  simp only [braced, Text.unbroken_append]
  exact ⟨⟨by decide, .intercalate (by decide) h⟩, by decide⟩

theorem subType_unbroken (hg : sheet.graph.Unbroken) (child : TypeId × Option String) :
    Yields (subType sheet child) Unbroken := by
  refine (write_yields (.generated child.1)).bind fun name hname => ?_
  have hbinary : Unbroken name := hname ▸ hg.binaryName child.1
  cases child.2 with
  | some tag =>
    refine .pure ?_
    simp only [Text.unbroken_append]
    exact ⟨⟨⟨⟨by decide, hbinary⟩, by decide⟩, unbroken_stringLiteral tag⟩, by decide⟩
  | none =>
    refine .pure ?_
    simp only [Text.unbroken_append]
    exact ⟨⟨by decide, hbinary⟩, by decide⟩

theorem IsMark.decimalBound {mark value : String} (h : IsMark mark) (hvalue : Unbroken value)
    (inclusive : Bool) : IsMark (Java.decimalBound mark value inclusive) := by
  unfold Java.decimalBound
  split
  · exact ((h.append (by decide)).append hvalue).append (by decide)
  · exact ((h.append (by decide)).append hvalue).append (by decide)

theorem annotationText_isMark (hg : sheet.graph.Unbroken) {directive : Directive}
    (h : directive.Unbroken) :
    Yields (annotationText sheet directive) fun text => ∀ mark ∈ text, IsMark mark := by
  have hsome :
    ∀ {mark : String}, IsMark mark → Yields (pure (some mark) : Importing (Option String))
      fun text => ∀ mark ∈ text, IsMark mark :=
    fun h => .pure fun _ hmark => Option.some.inj hmark ▸ h
  cases directive with
  | wireName style name =>
    cases style with
    | jackson2 =>
      exact (jackson_isMark (by decide)).bind fun _ hmark =>
        hsome (hmark.append (unbroken_quoted name))
    | gson => exact .after fun _ => hsome (IsMark.append ⟨"SerializedName", rfl, by decide⟩
        (unbroken_quoted name))
    | moshi =>
      refine .after fun _ => hsome ?_
      exact (IsMark.append ⟨"Json(name = ", rfl, by decide⟩ (unbroken_stringLiteral name)).append
        (by decide)
    | none => exact .pure nofun
  | expose => exact .after fun _ => hsome ⟨"Expose", rfl, by decide⟩
  | propertyOrder keys =>
    refine (jackson_isMark (by decide)).bind fun _ hmark => hsome (hmark.append ?_)
    refine unbroken_braced fun item hitem => ?_
    obtain ⟨key, -, rfl⟩ := List.mem_map.mp hitem
    exact unbroken_stringLiteral key
  | includeNonNull =>
    exact (jackson_isMark (by decide)).bind fun _ hmark => hsome (hmark.append (by decide))
  | typeInfo identification inclusion property =>
    refine (jackson_isMark (by decide)).bind fun _ hmark => hsome ?_
    have hid : Unbroken (identificationName identification) := by cases identification <;> decide
    have hinclusion : Unbroken (inclusionName inclusion) := by cases inclusion <;> decide
    exact ((((((hmark.append (by decide)).append hid).append (by decide)).append
      hinclusion).append (by decide)).append (unbroken_stringLiteral property)).append (by decide)
  | subTypes children =>
    refine (jackson_isMark (by decide)).bind fun _ hmark => ?_
    exact (Yields.mapM_forall fun child _ => subType_unbroken hg child).bind fun items hitems =>
      hsome (hmark.append (unbroken_braced hitems))
  | typeName tag =>
    exact (jackson_isMark (by decide)).bind fun _ hmark =>
      hsome (hmark.append (unbroken_quoted tag))
  | decimalMin value inclusive =>
    exact (validation_isMark (by decide)).bind fun _ hmark => hsome (hmark.decimalBound h inclusive)
  | decimalMax value inclusive =>
    exact (validation_isMark (by decide)).bind fun _ hmark => hsome (hmark.decimalBound h inclusive)
  | size min max =>
    refine (validation_isMark (by decide)).bind fun _ hmark => hsome ?_
    refine ((hmark.append (by decide)).append
      (.intercalate (by decide) fun text htext => ?_)).append
      (by decide)
    rcases List.mem_append.mp htext with htext | htext
    all_goals
      obtain ⟨n, -, rfl⟩ := List.mem_map.mp htext
      exact Text.unbroken_append.mpr ⟨by decide, Text.unbroken_nat n⟩
  | pattern pattern =>
    refine (validation_isMark (by decide)).bind fun _ hmark => hsome ?_
    exact ((hmark.append (by decide)).append (unbroken_stringLiteral pattern)).append (by decide)
  | notNull | valid =>
    exact (validation_isMark (by decide)).bind fun _ hmark => hsome hmark
  | anyProperties | enumValue | doc | requiredDoc => exact .pure nofun

theorem annotations_hidden (hg : sheet.graph.Unbroken) {directives : List Directive}
    (h : ∀ directive ∈ directives, directive.Unbroken) (indent : Nat) :
    Yields (annotations sheet indent directives) Hidden := by
  refine (Yields.mapM_forall fun directive hdirective =>
    annotationText_isMark hg (h directive hdirective)).bind fun texts htexts => .pure ?_
  have hmap : texts.filterMap (fun text => text.map (line indent)) =
      (texts.filterMap id).map (line indent) := by
    rw [List.map_filterMap]
    rfl
  rw [hmap]
  refine hidden_marks (fun mark hmark => ?_) indent
  obtain ⟨text, htext, rfl⟩ := List.mem_filterMap.mp hmark
  exact htexts _ htext mark rfl

theorem closesComment_line (indent : Nat) (text : String) :
    closesComment (line indent text) = closesComment text := by
  by_cases hempty : text = ""
  · simp [hempty, line]
  · rw [closesComment, closesComment, line_toList indent hempty]
    generalize 4 * indent = n
    induction n with
    | zero => rfl
    | succ n ih => rw [List.replicate_succ, List.cons_append, Text.hasPair_cons (by decide), ih]

/-- No text closes the comment that it stands in. -/
theorem docLine_inside (indent : Nat) {text : List Char} (h : '\n' ∉ text) :
    Unbroken (docLine indent text) ∧ closesComment (docLine indent text) = false := by
  constructor
  · rw [docLine, unbroken_line, Text.unbroken_append]
    refine ⟨by decide, .ofList fun hmem => ?_⟩
    rcases Text.mem_replacePair hmem with hnew | hold
    · exact absurd hnew (by decide)
    · refine h (List.mem_reverse.mp ?_)
      exact (List.dropWhile_sublist _).subset (List.mem_reverse.mp hold)
  · have hchars : ∀ cs : List Char, (" * " ++ String.ofList cs).toList = ' ' ::
      '*' :: ' ' :: cs := by
      intro cs
      simp
    rw [docLine, closesComment_line, closesComment, hchars, Text.hasPair_cons (by decide)]
    simpa [Text.hasPair, Text.hasPair_cons] using Text.hasPair_replacePair (Text.trimEnd text)

theorem docParagraphs_inside (indent : Nat) (texts : List String) :
    ∀ l ∈ docParagraphs indent texts, Unbroken l ∧ closesComment l = false := by
  have hparagraph : ∀ text, ∀ l ∈ docParagraph indent text, Unbroken l ∧
    closesComment l = false := by
    intro text l hl
    obtain ⟨cut, hcut, rfl⟩ := List.mem_map.mp hl
    exact docLine_inside indent (Text.not_mem_lines hcut)
  induction texts with
  | nil => exact fun _ hl => absurd hl List.not_mem_nil
  | cons text rest ih =>
    cases rest with
    | nil => exact hparagraph text
    | cons next others =>
      intro l hl
      rw [docParagraphs, List.mem_append, List.mem_cons] at hl
      · rcases hl with hl | rfl | hl
        · exact hparagraph text l hl
        · rw [unbroken_line, closesComment_line]
          decide
        · exact ih l hl
      · simp

theorem javadoc_hidden (indent : Nat) (directives : List Directive) :
    Hidden (javadoc indent directives) := by
  unfold javadoc
  dsimp only
  split
  · exact .nil
  · rw [List.append_assoc, List.append_assoc, List.singleton_append]
    rw [← List.append_assoc, ← List.cons_append]
    refine hidden_comment (fun l hl => ?_) (unbroken_line.mpr (by decide)) ?_
    · rcases List.mem_append.mp hl with hl | hl
      · exact docParagraphs_inside indent _ l hl
      · split at hl
        · rw [List.mem_singleton.mp hl, unbroken_line, closesComment_line]
          decide
        · cases hl
    · rw [closesComment_line]
      decide

theorem heading_hidden (h : sheet.Unbroken) (indent : Nat) (target : Target) :
    Yields (heading sheet indent target) Hidden :=
  (annotations_hidden h.graph (h.directives target) indent).bind fun _ hmarks =>
    .pure ((javadoc_hidden indent _).append hmarks)

theorem mem_named_library {name : String} (h : .library name ∈ type.named) :
    name ∈ type.library? := by
  induction type with
  | any | string | scalar => cases h
  | library other =>
    rw [TypeRef.named] at h
    split at h
    · cases h
    · cases List.mem_singleton.mp h
      rfl
  | generated id => cases List.mem_singleton.mp h
  | list element ih | set element ih => exact ih h

theorem unbroken_of_names (hg : sheet.graph.Unbroken) {id : TypeId} {name : String}
    (h : .library name ∈ sheet.names id) : Unbroken name := by
  have hdirectives : ∀ target, .library name ∉ sheet.namedOn target := by
    intro target hmem
    obtain ⟨directive, -, hnamed⟩ := List.mem_flatMap.mp hmem
    cases directive with
    | subTypes children =>
      obtain ⟨child, -, heq⟩ := List.mem_map.mp hnamed
      cases heq
    | _ => cases hnamed
  have hwritten : ∀ type ∈ (sheet.graph.get id).writtenTypes, .library name ∈ type.named →
      Unbroken name :=
    fun type htype hnamed => (hg.get id).libraries type htype name (mem_named_library hnamed)
  unfold TypeDecl.writtenTypes at hwritten
  rcases List.mem_append.mp h with h | h
  · unfold Sheet.headNames at h
    rcases List.mem_append.mp h with h | h
    · exact absurd h (hdirectives _)
    · split at h
      · rcases List.mem_append.mp h with h | h
        · obtain ⟨type, htype, hnamed⟩ := List.mem_flatMap.mp h
          exact hwritten type (by simp [Option.mem_toList.mp htype]) hnamed
        · obtain ⟨parent, -, heq⟩ := List.mem_map.mp h
          cases heq
      · cases h
  · unfold Sheet.bodyNames at h
    dsimp only at h
    split at h
    · rcases List.mem_append.mp h with h | h
      · obtain ⟨⟨property, i⟩, hproperty, hnamed⟩ := List.mem_flatMap.mp h
        rcases List.mem_append.mp hnamed with hnamed | hnamed
        · exact absurd hnamed (hdirectives _)
        · have hmem : property ∈ (sheet.graph.get id).properties := (List.mem_zipIdx' hproperty).2 ▸
            List.getElem_mem _
          exact hwritten property.type (by simp [List.mem_map_of_mem hmem]) hnamed
      · obtain ⟨type, htype, hnamed⟩ := List.mem_flatMap.mp h
        exact hwritten type (by simp [Option.mem_toList.mp htype]) hnamed
    · rcases List.mem_append.mp h with h | h
      · exact hwritten _ (by simp) h
      · obtain ⟨constant, -, hnamed⟩ := List.mem_flatMap.mp h
        exact absurd hnamed (hdirectives _)
    · cases h

theorem unbroken_helperClasses (jakarta : Bool) :
    ∀ full ∈ helperClasses jakarta, Unbroken full := by
  have hcollections : ∀ name ∈ collectionNames, Unbroken name := by decide
  have hjackson : ∀ name ∈ jacksonNames, Unbroken name := by decide
  have hvalidation : ∀ name ∈ validationNames, Unbroken name := by decide
  have hpackage : ∀ name, Unbroken (validationPackage jakarta name) := by
    intro name
    simp only [validationPackage, Text.unbroken_append]
    exact ⟨⟨by cases jakarta <;> decide, by decide⟩, by split <;> decide⟩
  intro full hfull
  obtain ⟨part, hpart, rfl⟩ := List.mem_map.mp hfull
  simp only [Text.unbroken_append]
  simp only [helperParts, List.mem_append, List.mem_map, List.mem_cons, List.not_mem_nil,
    or_false] at hpart
  rcases hpart with ((⟨name, hname, rfl⟩ | ⟨name, hname, rfl⟩) | rfl | rfl | rfl) |
    ⟨name, hname, rfl⟩
  · exact ⟨⟨(by decide : Unbroken "java.util"), by decide⟩, hcollections name hname⟩
  · exact ⟨⟨(by decide : Unbroken "com.fasterxml.jackson.annotation"), by decide⟩,
      hjackson name hname⟩
  · decide
  · decide
  · decide
  · exact ⟨⟨hpackage name, by decide⟩, hvalidation name hname⟩

/-- The imports of a file stand in a line each. -/
theorem unbroken_imports (hg : sheet.graph.Unbroken) {top : TypeId} :
    ∀ full ∈ sheet.imports top, Unbroken full := by
  have hneeds : sheet.Needs {full | Unbroken full}
      ((sheet.graph.inside (sheet.graph.size + 1) top).flatMap sheet.names) := by
    intro type htype full hfull
    obtain ⟨id, -, hnames⟩ := List.mem_flatMap.mp htype
    cases type with
    | generated target =>
      simp only [Sheet.imported?] at hfull
      split at hfull
      · cases hfull
        exact hg.qualifiedName _
      · cases hfull
    | library name =>
      have hname := unbroken_of_names hg hnames
      simp only [Sheet.imported?] at hfull
      split at hfull
      · cases hfull
      · split at hfull
        · cases hfull
        · split at hfull
          · cases hfull
            exact hname
          · cases hfull
  have hwrites := declarationLines_writes (unbroken_helperClasses _) _ 0 _ hneeds
  intro full hfull
  exact (hwrites.only [] full (mem_sortedImports.mp hfull)).resolve_left List.not_mem_nil

end Java

end SchemaBeans
