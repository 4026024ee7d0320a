import Mathlib.Data.List.Flatten
import SchemaBeans.Proofs.Files.Paths
import SchemaBeans.Proofs.Store.Following
import SchemaBeans.Proofs.Store.Files

/-! # Loading a file

A straight path, from the root along names only, is absolute as it stands and has nothing to
clean, so the name of its document spells it again. Two things come between the path and the file
that is read: a backslash turns into a slash when the name is made, and an escape is undone when
the file is looked for, although no path is escaped when its name is made. Neither makes a path
longer and both change it, so exactly the paths with neither of them are the paths that are read. -/
namespace SchemaBeans

namespace Text

theorem join_eq_flatMap (sep piece : List Char) (others : List (List Char)) :
    join sep (piece :: others) = piece ++ others.flatMap (sep ++ ·) := by
  induction others generalizing piece with
  | nil => simp [join]
  | cons next rest ih =>
    rw [join_cons (by simp), ih, List.flatMap_cons, List.append_assoc, List.append_assoc]

end Text

namespace Path

variable {path : String}

/-- A path from the root on which every step is a name. -/
structure Straight (path : String) : Prop where
  rooted : isAbsolute path = true
  forward : ∀ step ∈ (steps path).tail, step ≠ "" ∧ step ≠ "." ∧ step ≠ ".."

theorem Straight.spelled (h : Straight path) : ∃ rest, path.toList = '/' :: rest ∧
    ∀ piece ∈ Text.pieces '/' rest, piece ≠ [] ∧ piece ≠ ['.'] ∧ piece ≠ ['.', '.'] := by
  have hhead : path.toList.head? = some '/' := by simpa [isAbsolute] using h.rooted
  obtain ⟨rest, hrest⟩ := List.head?_eq_some_iff.mp hhead
  refine ⟨rest, hrest, fun piece hpiece => ?_⟩
  have hstep : String.ofList piece ∈ (steps path).tail := by
    have hsteps : steps path = "" :: (Text.pieces '/' rest).map String.ofList := by
      simp [steps, hrest, Text.pieces]
    rw [hsteps]
    exact List.mem_map_of_mem hpiece
  obtain ⟨hempty, hdot, hdots⟩ := h.forward _ hstep
  refine ⟨?_, ?_, ?_⟩ <;> rintro rfl
  · exact hempty rfl
  · exact hdot rfl
  · exact hdots rfl

def Open (path : String) : Prop := ∃ init last, path.toList = init ++ [last] ∧ last ≠ '/'

theorem open_append_name {name : List Char} (hne : name ≠ []) (hslash : '/' ∉ name)
    (base : String) :
    Open (base ++ String.ofList name) := by
  obtain ⟨init, last, rfl⟩ := (List.eq_nil_or_concat name).resolve_left hne
  refine ⟨base.toList ++ init, last, by simp, ?_⟩
  rintro rfl
  exact hslash (by simp)

theorem isAbsolute_name {name : List Char} (hslash : '/' ∉ name) :
    isAbsolute (String.ofList name) = false := by
  simp only [isAbsolute, String.toList_ofList, beq_eq_false_iff_ne]
  exact fun h => hslash (List.mem_of_mem_head? h)

theorem join_name {base : String} {name : List Char} (hbase : Open base) (hslash : '/' ∉ name) :
    join base (String.ofList name) = base ++ "/" ++ String.ofList name := by
  obtain ⟨init, last, hchars, hlast⟩ := hbase
  have hne : base ≠ "" := by
    rintro rfl
    simp at hchars
  rw [join, if_neg (by simp [isAbsolute_name hslash]), if_neg (by simp [hne, hchars, hlast])]

theorem foldl_join_names {names : List (List Char)} {base : String} (hbase : Open base)
    (hnames : ∀ name ∈ names, name ≠ [] ∧ '/' ∉ name) :
    ((names.map String.ofList).foldl join base).toList =
      base.toList ++ names.flatMap (['/'] ++ ·) := by
  induction names generalizing base with
  | nil => simp
  | cons name names ih =>
    obtain ⟨hne, hslash⟩ := hnames name (by simp)
    have hrest : ∀ other ∈ names, other ≠ [] ∧ '/' ∉ other :=
      fun other hother => hnames other (List.mem_cons_of_mem _ hother)
    rw [List.map_cons, List.foldl_cons, join_name hbase hslash,
      ih (open_append_name hne hslash _) hrest]
    simp

theorem filterMap_ofStep {names : List String}
    (h : ∀ name ∈ names, name ≠ "" ∧ name ≠ "." ∧ name ≠ "..") :
    (names.filterMap ofStep).map ofComponent = names := by
  induction names with
  | nil => rfl
  | cons name names ih =>
    obtain ⟨hempty, hdot, hdots⟩ := h name (by simp)
    have hname : ofStep name = some (.name name) := by
      rw [ofStep, if_neg (by simp [hempty, hdot]), if_neg hdots]
    rw [List.filterMap_cons_some hname, List.map_cons,
      ih fun other hother => h other (List.mem_cons_of_mem _ hother)]
    rfl

theorem Straight.isOpen (h : Straight path) : Open path := by
  obtain ⟨rest, hrest, hpieces⟩ := h.spelled
  obtain ⟨init, last, hinit⟩ := (List.eq_nil_or_concat rest).resolve_left (by
    rintro rfl
    exact (hpieces [] (by simp [Text.pieces])).1 rfl)
  refine ⟨'/' :: init, last, by simp [hrest, hinit], ?_⟩
  rintro rfl
  refine (hpieces [] ?_).1 rfl
  rw [hinit, List.concat_eq_append, Text.pieces_append]
  exact List.mem_append_right _ (by simp [Text.pieces])

/-- A straight path does not depend on the directory it is seen from. -/
theorem Straight.absolute (h : Straight path) (base : String) : absolute base path = path := by
  obtain ⟨rest, hrest, hpieces⟩ := h.spelled
  obtain ⟨first, others, hcut⟩ := List.exists_cons_of_ne_nil (Text.pieces_ne_nil '/' rest)
  have hslash : ∀ name ∈ first :: others, name ≠ [] ∧ '/' ∉ name := fun name hname =>
    ⟨(hpieces name (hcut ▸ hname)).1, Text.not_mem_of_mem_pieces (hcut ▸ hname)⟩
  have hsteps : steps path = "" :: (first :: others).map String.ofList := by
    simp [steps, hrest, Text.pieces, hcut]
  have hnames : ((steps path).filterMap ofStep).map ofComponent =
      (first :: others).map String.ofList := by
    have hforward := h.forward
    rw [hsteps] at hforward ⊢
    exact filterMap_ofStep hforward
  have hdouble : rest.head? ≠ some '/' := by
    intro hhead
    obtain ⟨tail, rfl⟩ := List.head?_eq_some_iff.mp hhead
    exact (hpieces [] (by simp [Text.pieces])).1 rfl
  have hstart : ¬ (path.toList.take 2 = ['/', '/'] ∧ path.toList.take 3 ≠ ['/', '/', '/']) := by
    rintro ⟨htwo, -⟩
    cases rest with
    | nil => simp [hrest] at htwo
    | cons c cs => simp_all
  have hend : path.toList.getLast? ≠ some '/' := by
    obtain ⟨init, last, hchars, hlast⟩ := h.isOpen
    simp [hchars, hlast]
  unfold Path.absolute
  simp only [hnames, h.rooted, if_true, if_neg hstart, if_neg hend]
  obtain ⟨hne, hfirst⟩ := hslash first (by simp)
  have hjoin : join "/" (String.ofList first) = "/" ++ String.ofList first := by
    rw [join, if_neg (by simp [isAbsolute_name hfirst]), if_pos (by simp)]
  apply String.toList_injective
  rw [List.map_cons, List.foldl_cons, hjoin, foldl_join_names (open_append_name hne hfirst "/")
    fun name hname => hslash name (List.mem_cons_of_mem _ hname), hrest,
    ← Text.join_pieces '/' rest,
    hcut, Text.join_eq_flatMap]
  simp

end Path

namespace Document

open Text

variable {path : List Char}

theorem climb_sublist : ∀ (steps done : List (List Char)),
    (climb done steps).Sublist (done.reverse ++ steps) := by
  intro steps
  induction steps with
  | nil => intro done; simp [climb]
  | cons step rest ih =>
    intro done
    have hskip : (done.reverse ++ rest).Sublist (done.reverse ++ step :: rest) :=
      (List.sublist_cons_self step rest).append_left _
    rw [climb]
    split
    · exact (ih done).trans hskip
    · split
      · refine ((ih done.tail).trans ?_).trans hskip
        exact ((List.tail_sublist done).reverse).append_right rest
      · split
        · exact (ih done).trans hskip
        · simpa using ih (step :: done)

theorem cleaned_sublist (h : Rooted path) : (cleaned path).Sublist path := by
  obtain ⟨rest, hrest⟩ := pieces_rooted h
  rw [cleaned_eq hrest (by simp) (by simp), ← join_pieces '/' path, hrest, join_eq_flatMap,
    join_eq_flatMap]
  exact (climb_sublist rest []).flatMap _

theorem cleaned_straight {path : String} (h : Path.Straight path) :
    cleaned path.toList = path.toList := by
  obtain ⟨rest, hrest, hpieces⟩ := h.spelled
  have hcut : pieces '/' path.toList = [] :: pieces '/' rest := by simp [hrest, pieces]
  have hsettled : ∀ {steps : List (List Char)},
      (∀ step ∈ steps, step ≠ [] ∧ step ≠ ['.'] ∧ step ≠ ['.', '.']) → Settled steps := by
    intro steps hsteps
    induction steps with
    | nil => trivial
    | cons step steps ih =>
      obtain ⟨hne, hdot, hdots⟩ := hsteps step (by simp)
      exact ⟨hdot, hdots, fun hempty => absurd hempty hne,
        ih fun other hother => hsteps other (List.mem_cons_of_mem _ hother)⟩
  rw [cleaned_eq hcut (by simp) (by simp), climb_settled [] (hsettled hpieces), List.reverse_nil,
    List.nil_append, ← hcut, join_pieces]

/-- A path as it stands in the name of its document before that is cleaned. -/
def slashed (path : String) : List Char := path.toList.map fun c => if c = '\\' then '/' else c

theorem slashed_length (path : String) : (slashed path).length = path.toList.length := by
  simp [slashed]

theorem not_mem_slashed (path : String) : '\\' ∉ slashed path := by
  intro hmem
  obtain ⟨c, -, hc⟩ := List.mem_map.mp hmem
  split at hc
  · exact absurd hc (by decide)
  · exact absurd hc ‹_›

theorem slashed_plain {path : String} (h : '\\' ∉ path.toList) : slashed path = path.toList := by
  have hsame : ∀ c ∈ path.toList, (if c = '\\' then '/' else c) = c := fun c hc =>
    if_neg fun hbackslash : c = '\\' => h (hbackslash ▸ hc)
  rw [slashed, List.map_congr_left hsame, List.map_id']

theorem slashed_rooted {path : String} (h : Path.Straight path) :
    ∃ rest, slashed path = '/' :: rest := by
  obtain ⟨rest, hrest, -⟩ := h.spelled
  exact ⟨_, by simp [slashed, hrest]; rfl⟩

theorem ofPath_straight {path : String} (h : Path.Straight path) (current : String) :
    ofPath current path = .ok (String.ofList ("file://".toList ++ cleaned (slashed path))) := by
  obtain ⟨rest, hrest⟩ := slashed_rooted h
  have hne : path.isEmpty = false := by
    obtain ⟨rest, hrest, -⟩ := h.spelled
    rw [String.isEmpty_eq_false_iff]
    rintro rfl
    simp at hrest
  have hrooted : Rooted (slashed path) := .inr ⟨rest, hrest⟩
  unfold ofPath
  simp only [hne, Bool.false_eq_true, if_false, h.absolute]
  show Except.ok (String.ofList (normal (_ ++ if (slashed path).head? = some '/' then slashed path
    else '/' :: slashed path))) = _
  rw [if_pos (by simp [hrest]), normal_of_authority (splitAuthority_file hrooted)]

/-- Exactly the straight paths without backslashes and escapes are the paths of their documents. -/
theorem filePath_ofPath {path name : String} (h : Path.Straight path)
    (hname : name = String.ofList ("file://".toList ++ cleaned (slashed path))) :
    filePath name = path ↔ '\\' ∉ path.toList ∧ ¬ Percent.Escaped path.toList := by
  obtain ⟨rest, hrest⟩ := slashed_rooted h
  have hspelled : filePath name = Percent.decode (String.ofList (cleaned (slashed path))) := by
    have hdrop : name.toList.drop "file://".length = cleaned (slashed path) := by
      rw [hname, @String.toList_ofList (_ ++ _)]
      exact List.drop_left' String.length_toList
    rw [filePath, hdrop]
  rw [hspelled]
  constructor
  · intro hsame
    -- Nothing on the way makes the path longer, so nothing has made it shorter.
    have hclean := cleaned_sublist (.inr ⟨rest, hrest⟩)
    have hdecoded := Percent.decode_length_le (String.ofList (cleaned (slashed path)))
    rw [hsame, String.length_ofList, ← String.length_toList, ← slashed_length] at hdecoded
    rw [hclean.eq_of_length_le hdecoded] at hsame
    have hescape : ¬ Percent.Escaped (String.ofList (slashed path)).toList := by
      refine Percent.not_escaped_of_length_le ?_
      rw [hsame, String.length_ofList, slashed_length, String.length_toList]
    have hplain : slashed path = path.toList := by
      rw [Percent.decode_eq_self_iff.mpr hescape] at hsame
      rw [← @String.toList_ofList (slashed path), hsame]
    rw [String.toList_ofList, hplain] at hescape
    exact ⟨hplain ▸ not_mem_slashed path, hescape⟩
  · rintro ⟨hslash, hescape⟩
    rw [slashed_plain hslash, cleaned_straight h, String.ofList_toList]
    exact Percent.decode_eq_self_iff.mpr hescape

end Document

namespace Store

open Percent (Escaped)

variable {files : FileSystem} {st : Store} {path name : String}

def parse (name : String) : Except FileFault String → Except Fault Json
  | .error cause => .error (.unresolved name (.unreadable cause))
  | .ok text =>
    match Json.ofText? text with
    | .ok content => .ok content
    | .error cause => .error (.unresolved name (.malformedDocument cause))

theorem fetch_file {spelled : List Char}
    (hname : name = String.ofList ("file://".toList ++ spelled)) :
    fetch files name = parse name (files.read (Document.filePath name)) := by
  have hscheme : "file://".toList.isPrefixOf name.toList = true := by
    rw [hname, @String.toList_ofList (_ ++ _), List.isPrefixOf_iff_prefix]
    exact List.prefix_append _ _
  unfold fetch Document.filePath
  dsimp only
  rw [if_pos hscheme]
  cases files.read _ <;> rfl

theorem document_new (hnew : st.documents.lookup name = none) :
    (document files name).run st = match fetch files name with
      | .error fault => (.error fault, st)
      | .ok content => (.ok content, st.register name content) := by
  unfold document
  refine (run_bind_ok (a := st) rfl).trans ?_
  rw [hnew]
  cases fetch files name <;> rfl

theorem follow_new (fuel : Nat) (hnew : st.documents.lookup name = none)
    (hfree : st.id? (.root name) = none) :
    (follow files (fuel + 1) [] (.root name)).run st = match fetch files name with
      | .error fault => (.error fault, st)
      | .ok content =>
        (materialize (follow files fuel [.root name]) (.root name) none content).run
          (st.register name content) := by
  rw [follow]
  refine (run_bind_ok (a := st) rfl).trans ?_
  rw [hfree]
  simp only [List.contains_nil, Bool.false_eq_true, if_false]
  have hroot : (Location.root name).document = name := rfl
  rw [run_bind, hroot, document_new hnew]
  cases fetch files name with
  | error fault => rfl
  | ok content => rfl

theorem resolve_run (place : Location) : (resolve files place).run st =
    (follow files (st.reach files) [] place).run st := by
  unfold resolve
  exact run_bind_ok (a := st) rfl

theorem resolve_new (hnew : st.documents.lookup name = none) (hfree : st.id? (.root name) = none) :
    ∃ fuel, (resolve files (.root name)).run st = match fetch files name with
      | .error fault => (.error fault, st)
      | .ok content =>
        (materialize (follow files fuel [.root name]) (.root name) none content).run
          (st.register name content) := by
  obtain ⟨fuel, hfuel⟩ : ∃ fuel, st.reach files = fuel + 1 := by
    unfold reach
    exact ⟨_, rfl⟩
  refine ⟨fuel, ?_⟩
  rw [resolve_run, hfuel]
  exact follow_new fuel hnew hfree

theorem load_run (hname : ∀ current, Document.ofPath current path = .ok name) :
    (load files path).run st = (resolve files (.root name)).run st := by
  unfold load
  dsimp only
  rw [hname]
  exact run_bind_ok (a := name) (t := st) rfl

/-- A straight path names one document, from any directory. Its first load reads the file under the
path that this name stands for, and goes on with what it holds or fails with the store unchanged.
That path is the one asked for exactly if it has no backslash and no escape. -/
theorem load_reads (h : Path.Straight path) : ∃ name,
    (∀ current, Document.ofPath current path = .ok name) ∧
    (Document.filePath name = path ↔ '\\' ∉ path.toList ∧ ¬ Escaped path.toList) ∧
    ∀ (files : FileSystem) (st : Store), st.documents.lookup name = none →
    st.id? (.root name) = none →
      ∃ fuel, (load files path).run st = match parse name (files.read (Document.filePath name)) with
        | .error fault => (.error fault, st)
        | .ok content =>
          (materialize (follow files fuel [.root name]) (.root name) none content).run
            (st.register name content) := by
  obtain ⟨name, hspelled⟩ : ∃ name,
      name = String.ofList ("file://".toList ++ Document.cleaned (Document.slashed path)) :=
      ⟨_, rfl⟩
  have hname : ∀ current, Document.ofPath current path = .ok name := fun current => by
    rw [hspelled, Document.ofPath_straight h]
  refine ⟨name, hname, Document.filePath_ofPath h hspelled, fun files st hnew hfree => ?_⟩
  obtain ⟨fuel, hresolve⟩ := @resolve_new files st name hnew hfree
  refine ⟨fuel, ?_⟩
  rw [← fetch_file hspelled, ← hresolve, load_run hname]

/-- A percent sign that begins no escape, a space and letters of other languages do no harm. -/
def shelf : FileSystem := ⟨[], [(["größe"], .directory), (["größe", "100% ä.json"], .file "true")]⟩

theorem load_reads_sign : Path.Straight "/größe/100% ä.json" ∧ ∃ name fuel,
    Document.filePath name = "/größe/100% ä.json" ∧
    (load shelf "/größe/100% ä.json").run {} =
      (materialize (follow shelf fuel [.root name]) (.root name) none (.bool true)).run
        (register {} name (.bool true)) := by
  have hstraight : Path.Straight "/größe/100% ä.json" := ⟨by decide, by decide⟩
  refine ⟨hstraight, ?_⟩
  obtain ⟨name, -, hpath, hload⟩ := load_reads hstraight
  have hsame := hpath.mpr ⟨by decide, Percent.decode_eq_self_iff.mp (by decide +kernel)⟩
  obtain ⟨fuel, hrun⟩ := hload shelf {} rfl rfl
  refine ⟨name, fuel, hsame, ?_⟩
  rw [hrun, hsame]
  rfl

/-- Two files whose names differ in an escape, and two that differ in a slash. -/
def twins : FileSystem :=
  ⟨[], [(["a%20b"], .file "true"), (["a b"], .file "1"),
    (["a\\c"], .file "true"), (["a"], .directory), (["a", "c"], .file "2")]⟩

theorem load_reads_other :
    (Path.Straight "/a%20b" ∧ Document.ofPath "/" "/a%20b" = .ok "file:///a%20b" ∧
      Document.filePath "file:///a%20b" = "/a b" ∧ twins.read "/a%20b" = .ok "true" ∧
      ((load twins "/a%20b").run {}).2.documents.map (fun d => (d.1, d.2.text)) =
        [("file:///a%20b", "1")]) ∧
    Path.Straight "/a\\c" ∧ Document.ofPath "/" "/a\\c" = .ok "file:///a/c" ∧
      Document.filePath "file:///a/c" = "/a/c" ∧ twins.read "/a\\c" = .ok "true" ∧
      ((load twins "/a\\c").run {}).2.documents.map (fun d => (d.1, d.2.text)) =
        [("file:///a/c", "2")] := by
  refine ⟨⟨⟨by decide, by decide⟩, ?_, by decide +kernel, ?_, by decide +kernel⟩,
    ⟨by decide, by decide⟩, ?_, by decide +kernel, ?_, by decide +kernel⟩ <;> rfl

end Store

end SchemaBeans
