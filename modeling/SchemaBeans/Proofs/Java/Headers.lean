import SchemaBeans.Proofs.Java.Imports
import SchemaBeans.Proofs.Java.Layout

/-! # The headers of declarations

What has been imported so far has no effect on what is written. So the line that opens a
declaration can be told from its type alone. It has clauses for the supertypes if the type is a
class; an enum or an interface is opened without any, whatever it is linked to. -/
namespace SchemaBeans.Java

variable {α β : Type} {sheet : Sheet} {id : TypeId}

/-- Whatever was imported before, what is written has the property. -/
def Yields (x : Importing α) (P : α → Prop) : Prop := ∀ before, P (x.run before).1

namespace Yields

variable {P : α → Prop} {x : Importing α}

theorem pure {a : α} (h : P a) : Yields (pure a) P := fun _ => h

theorem any (x : Importing α) : Yields x fun a => ∃ before, a = (x.run before).1 :=
  fun before => ⟨before, rfl⟩

theorem bind {f : α → Importing β} {P : α → Prop} {Q : β → Prop} (hx : Yields x P)
    (hf : ∀ a, P a → Yields (f a) Q) : Yields (x >>= f) Q :=
  fun before => hf _ (hx before) _

theorem after {f : α → Importing β} {Q : β → Prop} (hf : ∀ a, Yields (f a) Q) :
    Yields (x >>= f) Q := fun _ => hf _ _

theorem mapM {f : α → Importing β} {g : α → β} {xs : List α}
    (h : ∀ a, Yields (f a) (· = g a)) : Yields (xs.mapM f) (· = xs.map g) := by
  induction xs with
  | nil => exact pure rfl
  | cons x rest ih =>
    rw [List.mapM_cons]
    refine (h x).bind fun first hfirst => ih.bind fun others hothers => pure ?_
    rw [hfirst, hothers, List.map_cons]

end Yields

/-- A type as it is written. -/
def Sheet.typeText (sheet : Sheet) (boxed : Bool) : TypeRef → String
  | .any => "Object"
  | .string => "String"
  | .scalar scalar primitive => scalarName scalar (primitive && !boxed)
  | .library name => sheet.spelled (.library name)
  | .generated id => sheet.spelled (.generated id)
  | .list element => "List<" ++ sheet.typeText true element ++ ">"
  | .set element => "Set<" ++ sheet.typeText true element ++ ">"

theorem write_yields (type : Referent) : Yields (write sheet type) (· = sheet.spelled type) := by
  intro before
  rw [write_run]

theorem typeName_yields (boxed : Bool) (type : TypeRef) :
    Yields (typeName sheet boxed type) (· = sheet.typeText boxed type) := by
  induction type generalizing boxed with
  | any | string | scalar => exact .pure rfl
  | library name => exact write_yields (.library name)
  | generated id => exact write_yields (.generated id)
  | list element ih | set element ih =>
    refine .after fun _ => (ih true).bind fun text htext => .pure ?_
    rw [htext, Sheet.typeText]

/-- What stands in a header behind the name of the type. -/
structure Clauses where
  extended : Option String
  implemented : List String
  deriving DecidableEq, Repr

namespace Clauses

def names (c : Clauses) : List String := c.extended.toList ++ c.implemented

def text (c : Clauses) : String :=
  (match c.extended with
    | some name => " extends " ++ name
    | none => "") ++
    if c.implemented.isEmpty then "" else " implements " ++ ", ".intercalate c.implemented

end Clauses

/-- The supertypes of a type as they are written. -/
def Sheet.supertypeNames (sheet : Sheet) (id : TypeId) : List String :=
  let decl := sheet.graph.get id
  (decl.supertype.map (sheet.typeText false)).toList ++
    decl.interfaces.map fun parent => sheet.spelled (.generated parent)

def Sheet.clauses (sheet : Sheet) (id : TypeId) : Clauses :=
  let decl := sheet.graph.get id
  match decl.kind with
  | .bean => ⟨decl.supertype.map (sheet.typeText false),
      decl.interfaces.map fun parent => sheet.spelled (.generated parent)⟩
  | .enum | .interface => ⟨none, []⟩

theorem supertypes_yields {decl : TypeDecl} : Yields (supertypes sheet decl)
    (· = Clauses.text ⟨decl.supertype.map (sheet.typeText false),
      decl.interfaces.map fun parent => sheet.spelled (.generated parent)⟩) := by
  have hrest : ∀ extended : String, Yields
      (if decl.interfaces.isEmpty then pure extended
        else do
          let names ← decl.interfaces.mapM (generatedName sheet)
          pure (extended ++ " implements " ++ ", ".intercalate names))
      (· = extended ++ if decl.interfaces.isEmpty then "" else " implements " ++ ", ".intercalate
        (decl.interfaces.map fun parent => sheet.spelled (.generated parent))) := by
    intro extended
    split
    · exact .pure (String.append_empty).symm
    · refine (Yields.mapM fun parent => write_yields (.generated parent)).bind
        fun names hnames => ?_
      exact .pure (by rw [hnames, String.append_assoc])
  unfold supertypes Clauses.text
  simp only [List.isEmpty_map]
  cases decl.supertype with
  | none => exact hrest ""
  | some supertype =>
    refine (typeName_yields false supertype).bind fun text htext => ?_
    rw [htext]
    exact hrest _

theorem supertypeNames_subset_clauses_iff :
    sheet.supertypeNames id ⊆ (sheet.clauses id).names ↔ (sheet.graph.get id).kind = .bean ∨
      (sheet.graph.get id).supertype = none ∧ (sheet.graph.get id).interfaces = [] := by
  cases hkind : (sheet.graph.get id).kind with
  | bean => simp [Sheet.supertypeNames, Sheet.clauses, Clauses.names, hkind]
  | enum | interface => simp [Sheet.supertypeNames, Sheet.clauses, Clauses.names, hkind]

theorem clauses_names_eq_nil (hkind : (sheet.graph.get id).kind ≠ .bean) :
    (sheet.clauses id).names = [] := by
  cases h : (sheet.graph.get id).kind with
  | bean => exact absurd h hkind
  | enum | interface =>
    rw [Sheet.clauses, h]
    rfl

theorem mem_implemented {parent : TypeId} (hkind : (sheet.graph.get id).kind = .bean)
    (hparent : parent ∈ (sheet.graph.get id).interfaces) :
    sheet.graph.binaryName parent ∈ (sheet.clauses id).implemented := by
  rw [Sheet.clauses, hkind]
  exact List.mem_map_of_mem hparent

theorem extended_eq {parent : TypeId} (hkind : (sheet.graph.get id).kind = .bean)
    (hparent : (sheet.graph.get id).supertype = some (.generated parent)) :
    (sheet.clauses id).extended = some (sheet.graph.binaryName parent) := by
  rw [Sheet.clauses, hkind, hparent]
  rfl

def opening (decl : TypeDecl) : String :=
  match decl.kind with
  | .bean => if decl.enclosing.isSome then "public static class " else "public class "
  | .enum => "public enum "
  | .interface => "public interface "

/-- The text of the line that opens the declaration of a type. -/
def Sheet.header (sheet : Sheet) (id : TypeId) : String :=
  let decl := sheet.graph.get id
  opening decl ++ decl.name ++ (sheet.clauses id).text ++ " \x7b"

/-- The lines hold the header of the type, below its documentation and its annotations. -/
def Sheet.Heads (sheet : Sheet) (id : TypeId) (lines : Lines) : Prop :=
  ∃ indent before marks after, lines = before ++ marks ++ line indent (sheet.header id) :: after ∧
    ∃ imported, marks = ((heading sheet indent (.type id)).run imported).1

theorem Sheet.Heads.append {lines : Lines} (h : sheet.Heads id lines) (more : Lines) :
    sheet.Heads id (lines ++ more) := by
  obtain ⟨indent, before, marks, after, rfl, hmarks⟩ := h
  exact ⟨indent, before, marks, after ++ more, by simp, hmarks⟩

theorem Sheet.Heads.prepend {lines : Lines} (h : sheet.Heads id lines) (more : Lines) :
    sheet.Heads id (more ++ lines) := by
  obtain ⟨indent, before, marks, after, rfl, hmarks⟩ := h
  exact ⟨indent, more ++ before, marks, after, by simp, hmarks⟩

theorem classLines_heads (hkind : (sheet.graph.get id).kind = .bean) (indent : Nat) :
    Yields (classLines sheet indent id) (sheet.Heads id) := by
  unfold classLines
  refine (Yields.any _).bind fun marks hmarks => supertypes_yields.bind fun text htext => ?_
  have hopen : sheet.Heads id (marks ++ [line indent (opening (sheet.graph.get id) ++
      (sheet.graph.get id).name ++ text ++ " \x7b"), ""]) := by
    refine ⟨indent, [], marks, [""], ?_, hmarks⟩
    rw [htext, Sheet.header, Sheet.clauses, hkind]
    rfl
  rw [opening, hkind] at hopen
  refine .after fun fields => .after fun extension => ?_
  cases extension with
  | none =>
    refine .after fun _ => .after fun _ => .after fun _ => .after fun _ => .pure ?_
    iterate 5 apply Sheet.Heads.append
    exact hopen
  | some e =>
    refine .after fun _ => .after fun _ => .after fun _ => .after fun _ => .pure ?_
    iterate 5 apply Sheet.Heads.append
    exact hopen

theorem enumLines_heads (hkind : (sheet.graph.get id).kind = .enum) (indent : Nat) :
    Yields (enumLines sheet indent id) (sheet.Heads id) := by
  unfold enumLines
  refine (Yields.any _).bind fun marks hmarks => ?_
  have hopen : sheet.Heads id
      (marks ++ [line indent ("public enum " ++ (sheet.graph.get id).name ++ " \x7b"), ""]) := by
    refine ⟨indent, [], marks, [""], ?_, hmarks⟩
    simp [Sheet.header, Sheet.clauses, opening, hkind, Clauses.text]
  have hbody : ∀ body : Lines, Yields (pure (marks ++ [line indent ("public enum " ++
      (sheet.graph.get id).name ++ " \x7b"), ""] ++ body) : Importing Lines) (sheet.Heads id) :=
    fun body => .pure (hopen.append body)
  refine .after fun _ => .after fun _ => .after fun _ => .after fun _ => ?_
  simp only [List.append_assoc, pure_bind] at hbody ⊢
  split
  · exact .after fun _ => .after fun _ => hbody _
  · exact hbody _

theorem openLines_heads (indent : Nat) : Yields (openLines sheet indent id) (sheet.Heads id) := by
  unfold openLines
  split
  · exact classLines_heads ‹_› indent
  · exact enumLines_heads ‹_› indent
  · rename_i hkind
    refine (Yields.any _).bind fun marks hmarks => .pure ⟨indent, [], marks, [], ?_, hmarks⟩
    simp [Sheet.header, Sheet.clauses, opening, hkind, Clauses.text]

section Inside

variable {P : Lines → Prop}
  (hwithin : ∀ lines ahead behind : Lines, P lines → P (ahead ++ lines ++ behind))
  (hopen : ∀ indent, Yields (openLines sheet indent id) P)

include hwithin hopen

theorem written_yields {pieces : List Piece} {indent : Nat} (h : .opening indent id ∈ pieces) :
    Yields (written sheet pieces) P := by
  induction pieces with
  | nil => cases h
  | cons piece rest ih =>
    rw [written_cons]
    rcases List.mem_cons.mp h with rfl | hrest
    · refine (hopen indent).bind fun first hfirst => .after fun others => .pure ?_
      exact hwithin first [] others hfirst
    · refine .after fun first => (ih hrest).bind fun others hothers => .pure ?_
      simpa using hwithin others first [] hothers

theorem declarationLines_yields {fuel indent : Nat} {top : TypeId}
    (h : id ∈ sheet.graph.inside fuel top) : Yields (declarationLines sheet fuel indent top) P := by
  rw [← opened_pieces fuel indent top] at h
  obtain ⟨piece, hpiece, hopened⟩ := List.mem_filterMap.mp h
  cases piece with
  | opening indent other =>
    obtain rfl := Option.some.inj hopened
    rw [declarationLines_eq_written]
    exact written_yields hwithin hopen hpiece
  | gap | closing => cases hopened

end Inside

theorem declarationLines_heads {fuel indent : Nat} {top : TypeId}
    (h : id ∈ sheet.graph.inside fuel top) :
    Yields (declarationLines sheet fuel indent top) (sheet.Heads id) :=
  declarationLines_yields (fun _ ahead behind hlines => (hlines.prepend ahead).append behind)
    openLines_heads h

end SchemaBeans.Java
