import SchemaBeans.Java.SourceFile
import SchemaBeans.Proofs.Text.Cutting

/-! # Paths put together

A path below another one goes on with its own names, unless it is absolute: then the other one is
dropped. The path of a source file is put together from the parts of a package and the name of a
type, so it leaves its directory as soon as one of them starts with a slash, and the parts
between dots and between slashes cannot be told apart in it. -/
namespace SchemaBeans.Text

variable {sep : Char}

/-- More text without the separator only makes the last piece longer. -/
theorem pieces_append_plain {after : List Char} (h : sep ∉ after) : ∀ before : List Char,
    ∃ init last, pieces sep before = init ++ [last] ∧
      pieces sep (before ++ after) = init ++ [last ++ after] := by
  intro before
  induction before with
  | nil => exact ⟨[], [], rfl, pieces_of_not_mem h⟩
  | cons c cs ih =>
    obtain ⟨init, last, hcut, hlong⟩ := ih
    by_cases hc : c = sep
    · refine ⟨[] :: init, last, ?_, ?_⟩
      · simp [pieces, hc, hcut]
      · simp [pieces, hc, hlong]
    · cases init with
      | nil =>
        refine ⟨[], c :: last, ?_, ?_⟩
        · simp [pieces, hc, hcut]
        · simp [pieces, hc, hlong]
      | cons first others =>
        refine ⟨(c :: first) :: others, last, ?_, ?_⟩
        · simp [pieces, hc, hcut]
        · simp [pieces, hc, hlong]

end SchemaBeans.Text

namespace SchemaBeans.Path

variable {base path text : String}

/-- The steps of a path that are not empty. -/
def names (path : String) : List String := (steps path).filter (· ≠ "")

theorem steps_append_slash (base path : String) :
    steps (base ++ "/" ++ path) = steps base ++ steps path := by
  have hchars : (base ++ "/" ++ path).toList = base.toList ++ '/' :: path.toList := by simp
  rw [steps, hchars, Text.pieces_append, List.map_append]
  rfl

theorem names_empty : names "" = [] := by decide

theorem mem_names {step : String} :
    step ∈ names path ↔
      step ≠ "" ∧ ∃ piece ∈ Text.pieces '/' path.toList, String.ofList piece = step := by
  simp [names, steps, and_comm]

theorem names_ne_nil {c : Char} (hc : c ∈ path.toList) (hslash : c ≠ '/') : names path ≠ [] := by
  rw [← Text.join_pieces '/' path.toList] at hc
  rcases Text.mem_join hc with hsep | ⟨piece, hpiece, hmem⟩
  · exact absurd (List.mem_singleton.mp hsep) hslash
  · refine List.ne_nil_of_mem (mem_names.mpr ⟨fun hempty => ?_, piece, hpiece, rfl⟩)
    have hnil := congrArg String.toList hempty
    rw [String.toList_ofList] at hnil
    rw [hnil] at hmem
    cases hmem

theorem names_plain (hne : text ≠ "") (h : '/' ∉ text.toList) : names text = [text] := by
  simp [names, steps, Text.pieces_of_not_mem h, hne]

theorem isAbsolute_append (hne : base ≠ "") : isAbsolute (base ++ path) = isAbsolute base := by
  unfold isAbsolute
  rw [String.toList_append, List.head?_append]
  cases hbase : base.toList with
  | nil => exact absurd (String.toList_eq_nil_iff.mp hbase) hne
  | cons c cs => rfl

theorem join_absolute (h : isAbsolute path = true) : join base path = path := if_pos h

theorem join_cases (base : String) (h : isAbsolute path = false) :
    (base = "" ∧ join base path = path) ∨
      (base ≠ "" ∧ (∃ init, base.toList = init ++ ['/']) ∧ join base path = base ++ path) ∨
        (base ≠ "" ∧ join base path = base ++ "/" ++ path) := by
  unfold join
  rw [if_neg (by simp [h])]
  by_cases hbase : base = ""
  · exact Or.inl ⟨hbase, by simp [hbase]⟩
  · by_cases hlast : base.toList.getLast? = some '/'
    · obtain ⟨init, hinit⟩ := List.getLast?_eq_some_iff.mp hlast
      exact Or.inr (Or.inl ⟨hbase, ⟨init, hinit⟩, by simp [hlast]⟩)
    · exact Or.inr (Or.inr ⟨hbase, by simp [hbase, hlast]⟩)

theorem isAbsolute_join : isAbsolute (join base path) = (isAbsolute base || isAbsolute path) := by
  by_cases hpath : isAbsolute path = true
  · rw [join_absolute hpath, hpath, Bool.or_true]
  · have hrelative : isAbsolute path = false := by simpa using hpath
    rw [hrelative, Bool.or_false]
    rcases join_cases base hrelative with ⟨hbase, hjoin⟩ | ⟨hbase, -, hjoin⟩ | ⟨hbase, hjoin⟩
    · rw [hjoin, hbase, hrelative]
      rfl
    · rw [hjoin, isAbsolute_append hbase]
    · rw [hjoin, String.append_assoc, isAbsolute_append hbase]

theorem names_join (h : isAbsolute path = false) :
    names (join base path) = names base ++ names path := by
  rcases join_cases base h with ⟨hbase, hjoin⟩ | ⟨-, ⟨init, hinit⟩, hjoin⟩ | ⟨-, hjoin⟩
  · rw [hjoin, hbase, names_empty, List.nil_append]
  · have hbase : base = String.ofList init ++ "/" ++ "" := by
      apply String.toList_injective
      simpa using hinit
    have hfull : join base path = String.ofList init ++ "/" ++ path := by
      apply String.toList_injective
      rw [hjoin]
      simp [hinit]
    have hnames : names base = names (String.ofList init) := by
      rw [hbase, names, steps_append_slash, List.filter_append]
      exact List.append_nil _
    rw [hfull, hnames, names, steps_append_slash, List.filter_append]
    rfl
  · rw [hjoin, names, steps_append_slash, List.filter_append]
    rfl

end SchemaBeans.Path

namespace SchemaBeans.Java

open SchemaBeans.Path (names isAbsolute)

variable {package name package' name' : String}

/-- The parts of a package that are not empty. -/
def packageParts (package : String) : List String :=
  ((Text.pieces '.' package.toList).filter (!·.isEmpty)).map String.ofList

/-- The package or the name has a part that starts with a slash. -/
def Rooted (package name : String) : Prop :=
  ∃ part ∈ packageParts package ++ [name], isAbsolute part = true

/-- The names from the output directory to the file of a type. -/
def route (package name : String) : List String :=
  (packageParts package).flatMap names ++ names (name ++ ".java")

theorem isAbsolute_foldl (parts : List String) (base : String) :
    isAbsolute (parts.foldl Path.join base) = (isAbsolute base || parts.any isAbsolute) := by
  induction parts generalizing base with
  | nil => simp
  | cons part rest ih =>
    rw [List.foldl_cons, ih, Path.isAbsolute_join, List.any_cons, Bool.or_assoc]

theorem names_foldl {parts : List String} (h : ∀ part ∈ parts, isAbsolute part = false)
    (base : String) :
    names (parts.foldl Path.join base) = names base ++ parts.flatMap names := by
  induction parts generalizing base with
  | nil => simp
  | cons part rest ih =>
    rw [List.foldl_cons, ih (fun other hother => h other (List.mem_cons_of_mem _ hother)),
      Path.names_join (h part (by simp)), List.flatMap_cons, List.append_assoc]

theorem isAbsolute_fileName (name : String) : isAbsolute (name ++ ".java") = isAbsolute name := by
  by_cases hname : name = ""
  · subst hname
    rfl
  · exact Path.isAbsolute_append hname

theorem isAbsolute_sourcePath_iff :
    isAbsolute (sourcePath package name) = true ↔ Rooted package name := by
  show
    isAbsolute (Path.join ((packageParts package).foldl Path.join "") (name ++ ".java")) = true ↔ _
  rw [Path.isAbsolute_join, isAbsolute_foldl, isAbsolute_fileName]
  simp [Rooted, isAbsolute, or_comm]

theorem isAbsolute_sourcePath (h : ¬ Rooted package name) :
    isAbsolute (sourcePath package name) = false := by
  rw [← isAbsolute_sourcePath_iff] at h
  simpa using h

theorem names_sourcePath (h : ¬ Rooted package name) :
    names (sourcePath package name) = route package name := by
  have hparts : ∀ part ∈ packageParts package, isAbsolute part = false := by
    intro part hpart
    by_contra habsolute
    exact h ⟨part, List.mem_append_left _ hpart, by simpa using habsolute⟩
  have hname : isAbsolute (name ++ ".java") = false := by
    rw [isAbsolute_fileName]
    by_contra habsolute
    exact h ⟨name, by simp, by simpa using habsolute⟩
  show names (Path.join ((packageParts package).foldl Path.join "") (name ++ ".java")) = _
  rw [Path.names_join hname, names_foldl hparts, Path.names_empty, List.nil_append]
  rfl

theorem names_fileName_ne_nil (name : String) : names (name ++ ".java") ≠ [] :=
  Path.names_ne_nil (c := 'j') (by simp) (by decide)

theorem route_ne_nil : route package name ≠ [] := by
  unfold route
  rw [Ne, List.append_eq_nil_iff]
  exact fun h => names_fileName_ne_nil name h.2

theorem forward_of_mem_route (hname : '.' ∉ name.toList) {step : String}
    (h : step ∈ route package name) : step ≠ "." ∧ step ≠ ".." := by
  have hdot : ∀ {text : String}, (text = "." ∨ text = "..") → '.' ∈ text.toList ∧
    'j' ∉ text.toList := by
    rintro text (rfl | rfl) <;> decide
  suffices hstep : '.' ∈ step.toList → 'j' ∈ step.toList by
    constructor
    · intro heq
      exact (hdot (Or.inl heq)).2 (hstep (hdot (Or.inl heq)).1)
    · intro heq
      exact (hdot (Or.inr heq)).2 (hstep (hdot (Or.inr heq)).1)
  intro hmem
  rcases List.mem_append.mp h with hpart | hfile
  · obtain ⟨part, hin, hstep⟩ := List.mem_flatMap.mp hpart
    obtain ⟨-, piece, hpiece, rfl⟩ := Path.mem_names.mp hstep
    obtain ⟨chars, hchars, rfl⟩ := List.mem_map.mp hin
    rw [String.toList_ofList] at hpiece hmem
    exact absurd (Text.mem_of_mem_pieces hpiece hmem)
      (Text.not_mem_of_mem_pieces (List.mem_filter.mp hchars).1)
  · obtain ⟨-, piece, hpiece, rfl⟩ := Path.mem_names.mp hfile
    rw [String.toList_ofList] at hmem ⊢
    obtain ⟨init, last, hcut, hlong⟩ :=
      Text.pieces_append_plain (show '/' ∉ ".java".toList by decide) name.toList
    rw [String.toList_append, hlong] at hpiece
    rcases List.mem_append.mp hpiece with hinit | hlast
    · have hin : piece ∈ Text.pieces '/' name.toList := hcut ▸ List.mem_append_left _ hinit
      exact absurd (Text.mem_of_mem_pieces hin hmem) hname
    · rw [List.mem_singleton.mp hlast]
      exact List.mem_append_right _ (by decide)

/-- No part of the name can be taken for a path, and none is left out of one. -/
structure Tidy (package name : String) : Prop where
  parts : package = "" ∨ [] ∉ Text.pieces '.' package.toList
  within : '/' ∉ package.toList
  simple : '/' ∉ name.toList

theorem Tidy.not_rooted (h : Tidy package name) : ¬ Rooted package name := by
  have hslash : ∀ {text : String}, '/' ∉ text.toList → isAbsolute text ≠ true := by
    intro text htext habsolute
    refine htext (List.mem_of_mem_head? ?_)
    simpa [isAbsolute] using habsolute
  rintro ⟨part, hpart, habsolute⟩
  rcases List.mem_append.mp hpart with hpart | hpart
  · obtain ⟨chars, hchars, rfl⟩ := List.mem_map.mp hpart
    refine hslash (fun hmem => ?_) habsolute
    rw [String.toList_ofList] at hmem
    exact h.within (Text.mem_of_mem_pieces (List.mem_filter.mp hchars).1 hmem)
  · rw [List.mem_singleton.mp hpart] at habsolute
    exact hslash h.simple habsolute

theorem Tidy.route (h : Tidy package name) :
    route package name = packageParts package ++ [name ++ ".java"] := by
  have hfile : names (name ++ ".java") = [name ++ ".java"] := by
    refine Path.names_plain (fun hempty => ?_) ?_
    · have hchars := congrArg String.toList hempty
      simp at hchars
    · simpa using h.simple
  have hparts : ∀ parts : List String, (∀ part ∈ parts, part ≠ "" ∧ '/' ∉ part.toList) →
      parts.flatMap names = parts := by
    intro parts hall
    induction parts with
    | nil => rfl
    | cons part rest ih =>
      obtain ⟨hne, hslash⟩ := hall part (by simp)
      rw [List.flatMap_cons, Path.names_plain hne hslash,
        ih fun other hother => hall other (List.mem_cons_of_mem _ hother)]
      rfl
  rw [Java.route, hfile, hparts]
  intro part hpart
  obtain ⟨chars, hchars, rfl⟩ := List.mem_map.mp hpart
  obtain ⟨hpiece, hne⟩ := List.mem_filter.mp hchars
  refine ⟨fun hempty => ?_, fun hmem => ?_⟩
  · have hnil := congrArg String.toList hempty
    rw [String.toList_ofList] at hnil
    rw [hnil] at hne
    cases hne
  · rw [String.toList_ofList] at hmem
    exact h.within (Text.mem_of_mem_pieces hpiece hmem)

theorem Tidy.join_parts (h : Tidy package name) :
    Text.join ['.'] ((packageParts package).map String.toList) = package.toList := by
  have hback : (packageParts package).map String.toList =
      (Text.pieces '.' package.toList).filter (!·.isEmpty) := by
    unfold packageParts
    rw [List.map_map]
    simp [Function.comp_def]
  rw [hback]
  rcases h.parts with rfl | hparts
  · rfl
  · rw [List.filter_eq_self.mpr, Text.join_pieces]
    intro piece hpiece
    cases piece with
    | nil => exact absurd hpiece hparts
    | cons c cs => rfl

theorem Tidy.route_inj (h : Tidy package name) (k : Tidy package' name')
    (heq : Java.route package name = Java.route package' name') : package = package' ∧
    name = name' := by
  rw [h.route, k.route] at heq
  obtain ⟨hparts, hfile⟩ := List.append_inj' heq rfl
  constructor
  · apply String.toList_injective
    rw [← h.join_parts, ← k.join_parts, hparts]
  · have hchars := congrArg String.toList (List.singleton_inj.mp hfile)
    rw [String.toList_append, String.toList_append] at hchars
    exact String.toList_injective (List.append_cancel_right hchars)

end SchemaBeans.Java
