import SchemaBeans.Proofs.Outcome
import SchemaBeans.Proofs.Reference.Names
import SchemaBeans.Proofs.Text.Octets
import SchemaBeans.Store

/-! # Documents and their files

A document with a plain name is read from the file that its name spells, so two of them are never
read from one file. Names with percent escapes are not plain: the escapes are undone only when the
file is read. -/
namespace SchemaBeans

namespace Percent

theorem decode_plain {text : String} (h : '%' ∉ text.toList) : decode text = text := by
  refine decode_eq_self_iff.mpr ?_
  rintro ⟨before, a, b, after, htext, -⟩
  exact h (by simp [htext])

end Percent

namespace FileSystem

variable {files : FileSystem}

theorem walk_settled : ∀ {steps : List (List Char)} {place out : List String},
    Document.Settled steps → files.walk place (steps.map String.ofList) = .ok out →
      out = place ++ steps.map String.ofList ∨ files.entry? out = some .directory := by
  intro steps
  induction steps with
  | nil =>
    intro place out _ h
    cases h
    exact .inl (by simp)
  | cons step rest ih =>
    rintro place out ⟨hdot, hdots, hempty, hrest⟩ h
    have hname : ∀ {other : List Char}, step ≠ other → String.ofList step ≠ String.ofList other :=
      fun hne heq => hne (String.ofList_injective heq)
    rw [List.map_cons, walk] at h
    split at h
    · cases h
    · cases h
    · rename_i hdirectory
      split at h
      · rename_i hidle
        -- A settled step that is idle is empty, and the last one.
        obtain rfl := hempty (by
          rcases hidle with hidle | hidle
          · exact String.ofList_injective hidle
          · exact absurd hidle (hname hdot))
        cases h
        exact .inr hdirectory
      · split at h
        · exact absurd ‹_› (hname hdots)
        · split at h
          · cases h
          · rw [List.map_cons, ← List.singleton_append, ← List.append_assoc]
            exact ih hrest h

theorem walk_of_locate {path : String} {place : List String} (h : files.locate path = .ok place) :
    path ≠ "" ∧
      files.walk (if Path.isAbsolute path then [] else files.current) (Path.steps path) =
      .ok place := by
  unfold locate at h
  split at h
  · cases h
  · split at h
    · cases h
    · rename_i hempty
      split at h
      · cases h
      · exact ⟨fun he => hempty (by rw [he]; rfl), h⟩

theorem read_settled {path text : String} {rest : List Char} (hpath : path.toList = '/' :: rest)
    (hsettled : Document.Settled (Text.pieces '/' rest)) (h : files.read path = .ok text) :
    files.locate path = .ok ((Text.pieces '/' rest).map String.ofList) := by
  obtain ⟨place, hplace, hentry⟩ := ok_of_bind h
  have hsteps : Path.steps path = "" :: (Text.pieces '/' rest).map String.ofList := by
    simp [Path.steps, hpath, Text.pieces]
  have habsolute : Path.isAbsolute path = true := by simp [Path.isAbsolute, hpath]
  obtain ⟨-, hwalk⟩ := walk_of_locate hplace
  rw [hsteps, if_pos habsolute, walk] at hwalk
  have hroot : files.entry? [] = some .directory := rfl
  simp only [hroot, true_or, if_true] at hwalk
  rcases walk_settled hsettled hwalk with hout | hdirectory
  · rw [hplace, hout, List.nil_append]
  · rw [hdirectory] at hentry
    cases hentry

end FileSystem

namespace Document

/-- A name like those of files: scheme and path from the root, where nothing can be left out and
nothing reads as an escape. -/
structure Plain (name : String) : Prop where
  path : ∃ path, Rooted path ∧ name.toList = "file://".toList ++ path
  normal : normal name.toList = name.toList
  unescaped : '%' ∉ name.toList

/-- The path that a document is read from. -/
def filePath (name : String) : String :=
  Percent.decode (String.ofList (name.toList.drop "file://".length))

theorem splitAuthority_file {path : List Char} (h : Rooted path) :
    splitAuthority ("file://".toList ++ path) = some ("file://".toList, path) := by
  have hempty : splitAuthority "file://".toList = some ("file://".toList, []) := by decide
  exact (splitAuthority_some hempty).2.2 path h

/-- A plain name spells the path that is read, which is in its one form. -/
theorem Plain.spelled {name : String} (h : Plain name) :
    name.toList = "file://".toList ++ (filePath name).toList ∧ Rooted (filePath name).toList ∧
      cleaned (filePath name).toList = (filePath name).toList := by
  obtain ⟨path, hrooted, hname⟩ := h.path
  have hpath : (filePath name).toList = path := by
    have hdrop : name.toList.drop "file://".length = path := by
      rw [hname]
      exact List.drop_left' String.length_toList
    unfold filePath
    rw [hdrop, Percent.decode_plain, String.toList_ofList]
    intro hmem
    rw [@String.toList_ofList path] at hmem
    exact h.unescaped (by rw [hname]; exact List.mem_append_right _ hmem)
  rw [hpath]
  refine ⟨hname, hrooted, ?_⟩
  have hnormal := h.normal
  rw [hname, normal_of_authority (splitAuthority_file hrooted)] at hnormal
  exact List.append_cancel_left hnormal

end Document

namespace Store

variable {files : FileSystem} {name other : String} {content part : Json}

theorem read_of_fetch (h : fetch files name = .ok content) :
    ∃ text, files.read (Document.filePath name) = .ok text := by
  unfold fetch at h
  dsimp only at h
  split at h
  · split at h
    · cases h
    · rename_i text hread
      exact ⟨text, hread⟩
  · cases h

theorem locate_of_fetch (hplain : Document.Plain name) (h : fetch files name = .ok content) :
    ∃ steps : List (List Char), files.locate (Document.filePath name) =
    .ok (steps.map String.ofList) ∧
      (Document.filePath name).toList = Text.join ['/'] ([] :: steps) := by
  obtain ⟨text, hread⟩ := read_of_fetch h
  obtain ⟨-, hrooted, hcleaned⟩ := hplain.spelled
  obtain ⟨place, hplace, -⟩ := ok_of_bind hread
  rcases hrooted with hempty | ⟨rest, hrest⟩
  · exact absurd (String.toList_eq_nil_iff.mp hempty) (FileSystem.walk_of_locate hplace).1
  · have hpieces : Text.pieces '/' (Document.filePath name).toList = [] ::
      Text.pieces '/' rest := by
      simp [hrest, Text.pieces]
    have hsteps := Document.pieces_cleaned hpieces (by simp) (by simp)
    rw [hcleaned, hpieces] at hsteps
    have hclimb := (List.cons.inj hsteps).2
    refine ⟨Text.pieces '/' rest, FileSystem.read_settled hrest ?_ hread, ?_⟩
    · rw [hclimb]
      exact Document.settled_climb _ [] (by simp)
    · rw [← hcleaned, Document.cleaned_eq hpieces (by simp) (by simp), ← hclimb]

theorem fetch_apart (hname : Document.Plain name) (hother : Document.Plain other)
    (h : fetch files name = .ok content) (k : fetch files other = .ok part) (hne : name ≠ other) :
    files.locate (Document.filePath name) ≠ files.locate (Document.filePath other) := by
  intro heq
  obtain ⟨steps, hsteps, hpath⟩ := locate_of_fetch hname h
  obtain ⟨more, hmore, kpath⟩ := locate_of_fetch hother k
  rw [hsteps, hmore] at heq
  have hsame : steps = more :=
    List.map_injective_iff.mpr (fun _ _ => String.ofList_injective) (Except.ok.inj heq)
  refine hne (String.toList_inj.mp ?_)
  rw [hname.spelled.1, hother.spelled.1, hpath, kpath, hsame]

end Store

end SchemaBeans
