import Mathlib.Data.List.Nodup
import SchemaBeans.Proofs.Generation.Filling

/-! # The labels of an enum

The literals of an enum are named one after the other, each by the name that the schema has for its
position or by its own text. An enum is refused exactly if two constants would have one name. So its
names are different, and the texts of two literals are, unless the schema names one of them. -/
namespace SchemaBeans.Drafting

variable {settings : Settings} {k : Keywords} {decl : TypeDecl} {custom : List String}
  {done made : List EnumConstant} {literals : List Json} {i j : Nat}

/-- The constants that literals become from a position on. -/
def labelled (custom : List String) (start : Nat) (literals : List Json) : List EnumConstant :=
  literals.mapIdx fun i literal => ⟨literalName custom (start + i) literal, literal⟩

theorem labelled_cons (custom : List String) (start : Nat) (literal : Json) (rest : List Json) :
    labelled custom start (literal :: rest) =
      ⟨literalName custom start literal, literal⟩ :: labelled custom (start + 1) rest := by
  simp only [labelled, List.mapIdx_cons, Nat.add_zero, Nat.add_assoc, Nat.add_comm 1]

/-- Naming literals succeeds exactly if it makes no name twice. -/
theorem nameLiterals_eq_ok_iff (hdone : (done.map (·.name)).Nodup) :
    nameLiterals custom done literals = .ok made ↔
      made = done ++ labelled custom done.length literals ∧ (made.map (·.name)).Nodup := by
  -- On the literals that are left: how many there are so far is the position of the next one.
  induction literals generalizing done with
  | nil =>
    simp only [nameLiterals, Except.ok.injEq, labelled, List.mapIdx_nil, List.append_nil]
    constructor
    · rintro rfl
      exact ⟨rfl, hdone⟩
    · exact fun h => h.1.symm
  | cons literal rest ih =>
    simp only [nameLiterals, labelled_cons]
    cases hfind : done.find? (·.name == literalName custom done.length literal) with
    | some first =>
      refine iff_of_false nofun ?_
      rintro ⟨rfl, hnodup⟩
      have hname := List.find?_some hfind
      rw [List.map_append, List.nodup_append] at hnodup
      exact hnodup.2.2 _ (List.mem_map_of_mem (List.mem_of_find?_eq_some hfind)) _
        (List.mem_map_of_mem List.mem_cons_self) (by simpa using hname)
    | none =>
      have hfresh : literalName custom done.length literal ∉ done.map (·.name) := by
        intro hmem
        obtain ⟨first, hfirst, hname⟩ := List.mem_map.mp hmem
        have hnot := List.find?_eq_none.mp hfind first hfirst
        simp [hname] at hnot
      have hnew : ((done ++
        [(⟨literalName custom done.length literal, literal⟩ : EnumConstant)]).map
          (·.name)).Nodup := by
        rw [List.map_append, List.map_singleton]
        exact List.nodup_append_comm.mp (List.nodup_cons.mpr ⟨hfresh, hdone⟩)
      rw [ih hnew, List.length_append, List.append_assoc]
      rfl

theorem Labels.distinct_and_eq (h : Labels settings k decl) :
    decl.constants = labelled (k.javaEnumNames.getD []) 0 (enumLiterals k) ∧
      (decl.constants.map (·.name)).Nodup := by
  have hdone : (([] : List EnumConstant).map (·.name)).Nodup := List.nodup_nil
  exact (nameLiterals_eq_ok_iff hdone).mp h.named

def Unnamed (k : Keywords) (i : Nat) : Prop :=
  ∀ name, (k.javaEnumNames.getD [])[i]? = some name → (Text.trim name.toList).isEmpty = true

theorem Unnamed.name (h : Unnamed k i) (literal : Json) :
    literalName (k.javaEnumNames.getD []) i literal = Names.constantName literal.plainText := by
  unfold literalName
  split
  · exact if_pos (h _ ‹_›)
  · rfl

theorem Labels.name (h : Labels settings k decl) (hi : i < decl.constants.length) :
    decl.constants[i].name = literalName (k.javaEnumNames.getD []) i decl.constants[i].value := by
  simp [h.distinct_and_eq.1, labelled]

theorem Labels.plainText_ne (h : Labels settings k decl) (hi : i < decl.constants.length)
    (hj : j < decl.constants.length) (hne : i ≠ j) (hunnamed : Unnamed k i)
    (hunnamed' : Unnamed k j) :
    decl.constants[i].value.plainText ≠ decl.constants[j].value.plainText := by
  intro htext
  have hname : decl.constants[i].name = decl.constants[j].name := by
    rw [h.name hi, h.name hj, hunnamed.name, hunnamed'.name, htext]
  have hinj := @List.Nodup.getElem_inj_iff _ _ h.distinct_and_eq.2 i (by simpa using hi) j
    (by simpa using hj)
  exact hne (hinj.mp (by simpa using hname))

end SchemaBeans.Drafting
