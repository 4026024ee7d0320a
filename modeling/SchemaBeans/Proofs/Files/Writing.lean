import SchemaBeans.FileSystem
import SchemaBeans.Proofs.Files.Paths
import SchemaBeans.Proofs.Outcome

/-! # Writing files

Writing a file below a directory that may be missing makes new directories, puts the file at the
place that its path names, and leaves everything else as it is. A place that was found stays
where it is, since directories are never taken away. So after a row of files was written, each
path still names the place of its file, and a file that no later one was written over has its
text. -/
namespace SchemaBeans.FileSystem

variable {fs mid fs' : FileSystem} {place out : List String} {path text directory : String}

theorem lookup_filter {places : List (List String × Entry)} {other : List String}
    (h : other ≠ place) : (places.filter (·.1 != place)).lookup other = places.lookup other := by
  induction places with
  | nil => rfl
  | cons found rest ih =>
    obtain ⟨key, entry⟩ := found
    by_cases hkey : key = place
    · rw [List.filter_cons_of_neg (by simp [hkey]), ih, List.lookup_cons]
      have hother : (other == key) = false := by simp [hkey, h]
      rw [hother]
    · rw [List.filter_cons_of_pos (by simp [hkey]), List.lookup_cons, List.lookup_cons, ih]

theorem entry?_put (hplace : place ≠ []) (entry : Entry) (other : List String) :
    entry? (fs.put place entry) other = if other = place then some entry else fs.entry? other := by
  unfold entry? put
  by_cases hempty : other = []
  · subst hempty
    rw [if_neg (Ne.symm hplace)]
    rfl
  · have hnot : other.isEmpty = false := by simpa using hempty
    by_cases hsame : other = place
    · subst hsame
      simp [hnot]
    · have hother : (other == place) = false := by simpa using hsame
      simp only [hnot, Bool.false_eq_true, if_false, if_neg hsame, List.lookup_cons, hother,
        lookup_filter hsame]

/-- The files were written one after the other, and besides them there are only new directories. -/
structure Wrote (fs : FileSystem) (files : List (List String × String)) (fs' : FileSystem) :
    Prop where
  current : fs'.current = fs.current
  directories : ∀ place, fs.entry? place = some .directory → fs'.entry? place = some .directory
  others : ∀ place, place ∉ files.map Prod.fst → fs'.entry? place = fs.entry? place ∨
    fs.entry? place = none ∧ fs'.entry? place = some .directory
  texts : (files.map Prod.fst).Nodup → ∀ file ∈ files, fs'.entry? file.1 = some (.file file.2)

theorem Wrote.refl (fs : FileSystem) : fs.Wrote [] fs where
  current := rfl
  directories _ h := h
  others _ _ := Or.inl rfl
  texts _ _ h := by cases h

/-- A place that no later file was written to keeps its file. -/
theorem Wrote.keeps {files : List (List String × String)} (h : fs.Wrote files fs') {entry : Entry}
    (hentry : fs.entry? place = some entry) (hplace : place ∉ files.map Prod.fst) :
    fs'.entry? place = some entry := by
  rcases h.others place hplace with hsame | ⟨hnone, -⟩
  · rw [hsame, hentry]
  · rw [hentry] at hnone
    cases hnone

theorem Wrote.trans {files more : List (List String × String)} (h : fs.Wrote files mid)
    (k : mid.Wrote more fs') : fs.Wrote (files ++ more) fs' where
  current := k.current.trans h.current
  directories place hplace := k.directories place (h.directories place hplace)
  others place hplace := by
    rw [List.map_append, List.mem_append, not_or] at hplace
    rcases h.others place hplace.1 with hsame | ⟨hnone, hdirectory⟩
    · rw [← hsame]
      exact k.others place hplace.2
    · exact Or.inr ⟨hnone, k.directories place hdirectory⟩
  texts hnodup := by
    rw [List.map_append] at hnodup
    obtain ⟨hfirst, hsecond, hapart⟩ := List.nodup_append.mp hnodup
    intro file hfile
    rcases List.mem_append.mp hfile with hfile | hfile
    · refine k.keeps (h.texts hfirst file hfile) fun hlater => ?_
      exact hapart _ (List.mem_map_of_mem hfile) _ hlater rfl
    · exact k.texts hsecond file hfile

theorem makeDirectory_wrote (h : fs.makeDirectory path = .ok fs') : fs.Wrote [] fs' := by
  obtain ⟨place, -, h⟩ := ok_of_bind h
  cases hentry : fs.entry? place with
  | some entry =>
    rw [hentry] at h
    cases h
  | none =>
    rw [hentry] at h
    obtain ⟨-, -, hput⟩ := ok_of_bind h
    cases hput
    have hplace : place ≠ [] := by
      rintro rfl
      cases hentry
    refine ⟨rfl, fun other hother => ?_, fun other _ => ?_, fun _ _ hfile => by cases hfile⟩
    · rw [entry?_put hplace]
      split
      · rfl
      · exact hother
    · rw [entry?_put hplace]
      split
      · rename_i hsame
        exact Or.inr ⟨hsame ▸ hentry, rfl⟩
      · exact Or.inl rfl

theorem write_wrote (h : fs.write path text = .ok fs') :
    ∃ place, fs.locate path = .ok place ∧ fs.Wrote [(place, text)] fs' := by
  obtain ⟨place, hlocate, h⟩ := ok_of_bind h
  refine ⟨place, hlocate, ?_⟩
  by_cases hentry : fs.entry? place = some .directory
  · simp only [hentry, if_true] at h
    cases h
  · simp only [hentry, if_false] at h
    obtain ⟨-, -, hput⟩ := ok_of_bind h
    cases hput
    have hplace : place ≠ [] := by
      rintro rfl
      exact hentry rfl
    refine ⟨rfl, fun other hother => ?_, fun other hother => ?_, fun _ file hfile => ?_⟩
    · rw [entry?_put hplace, if_neg]
      · exact hother
      · rintro rfl
        exact hentry hother
    · rw [entry?_put hplace, if_neg (by simpa using hother)]
      exact Or.inl rfl
    · rw [List.mem_singleton.mp hfile, entry?_put hplace, if_pos rfl]

/-- Where the directories are kept, a way that was found is found again. -/
theorem walk_keeps (h : ∀ place, fs.entry? place = some .directory → fs'.entry? place =
    some .directory) :
    ∀ {steps : List String} {place : List String},
      fs.walk place steps = .ok out → fs'.walk place steps = .ok out := by
  intro steps
  induction steps with
  | nil => exact fun hwalk => hwalk
  | cons step rest ih =>
    intro place hwalk
    rw [walk] at hwalk ⊢
    cases hentry : fs.entry? place with
    | none =>
      rw [hentry] at hwalk
      cases hwalk
    | some entry =>
      cases entry with
      | file other =>
        rw [hentry] at hwalk
        cases hwalk
      | directory =>
        rw [hentry] at hwalk
        rw [h place hentry]
        dsimp only at hwalk ⊢
        by_cases hidle : step = "" ∨ step = "."
        · rw [if_pos hidle] at hwalk ⊢
          exact ih hwalk
        · rw [if_neg hidle] at hwalk ⊢
          by_cases hup : step = ".."
          · rw [if_pos hup] at hwalk ⊢
            exact ih hwalk
          · rw [if_neg hup] at hwalk ⊢
            by_cases hlong : nameLimit < byteLength step
            · rw [if_pos hlong] at hwalk
              cases hwalk
            · rw [if_neg hlong] at hwalk ⊢
              exact ih hwalk

theorem locate_iff : fs.locate path = .ok place ↔
    '\x00' ∉ path.toList ∧ path ≠ "" ∧ byteLength path ≤ pathLimit ∧
      fs.walk (if Path.isAbsolute path then [] else fs.current) (Path.steps path) = .ok place := by
  unfold locate
  by_cases hnul : path.toList.contains '\x00' = true
  · rw [if_pos hnul]
    constructor
    · intro h
      cases h
    · intro h
      exact absurd (List.contains_iff_mem.mp hnul) h.1
  · rw [if_neg hnul]
    rw [List.contains_iff_mem] at hnul
    by_cases hempty : path = ""
    · rw [if_pos (by simp [hempty])]
      constructor
      · intro h
        cases h
      · intro h
        exact absurd hempty h.2.1
    · rw [if_neg (by simpa using hempty)]
      by_cases hlong : pathLimit < byteLength path
      · rw [if_pos hlong]
        constructor
        · intro h
          cases h
        · intro h
          exact absurd hlong (Nat.not_lt.mpr h.2.2.1)
      · rw [if_neg hlong]
        exact ⟨fun h => ⟨hnul, hempty, Nat.not_lt.mp hlong, h⟩, fun h => h.2.2.2⟩

theorem Wrote.locate {files : List (List String × String)} (h : fs.Wrote files fs')
    (hlocate : fs.locate path = .ok place) : fs'.locate path = .ok place := by
  rw [locate_iff] at hlocate ⊢
  rw [h.current]
  obtain ⟨hnul, hempty, hlong, hwalk⟩ := hlocate
  exact ⟨hnul, hempty, hlong, walk_keeps h.directories hwalk⟩

theorem read_eq (h : fs.locate path = .ok place) (hentry : fs.entry? place = some (.file text)) :
    fs.read path = .ok text := by
  unfold read
  rw [h]
  simp only [bind, Except.bind, hentry]
  rfl

theorem ok_of_run_bind {ε σ α β : Type} {x : ExceptT ε (StateM σ) α}
    {f : α → ExceptT ε (StateM σ) β}
    {s u : σ} {b : β} (h : (x >>= f).run s = (.ok b, u)) :
    ∃ a t, x.run s = (.ok a, t) ∧ (f a).run t = (.ok b, u) := by
  have hrun : (ExceptT.bindCont f (x.run s).1).run (x.run s).2 = (.ok b, u) := h
  rcases hx : x.run s with ⟨r, t⟩
  rw [hx] at hrun
  cases r with
  | error e => cases hrun
  | ok a => exact ⟨a, t, rfl, hrun⟩

theorem ensureDirectory_wrote (h : (ensureDirectory path).run fs = (.ok (), fs')) :
    fs.Wrote [] fs' := by
  obtain ⟨_, _, hget, h⟩ := ok_of_run_bind h
  cases hget
  cases hmade : fs.makeDirectory path with
  | ok made =>
    rw [hmade] at h
    cases h
    exact makeDirectory_wrote hmade
  | error fault =>
    rw [hmade] at h
    obtain ⟨_, _, hget, h⟩ := ok_of_run_bind h
    cases hget
    by_cases hthere : fs.isDirectory path = true
    · simp only [hthere, if_true] at h
      cases h
      exact Wrote.refl _
    · simp only [hthere] at h
      cases h

theorem makeDirectories_wrote : ∀ {fuel : Nat} {path : String} {fs fs' : FileSystem},
    (makeDirectories fuel path).run fs = (.ok (), fs') → fs.Wrote [] fs' := by
  intro fuel
  induction fuel with
  | zero =>
    intro path fs fs' h
    rw [makeDirectories] at h
    by_cases hempty : path.isEmpty = true
    · rw [if_pos hempty] at h
      cases h
      exact Wrote.refl _
    · rw [if_neg hempty] at h
      exact ensureDirectory_wrote h
  | succ fuel ih =>
    intro path fs fs' h
    rw [makeDirectories] at h
    by_cases hempty : path.isEmpty = true
    · simp only [hempty, if_true] at h
      cases h
      exact Wrote.refl _
    · simp only [hempty] at h
      obtain ⟨_, _, hget, h⟩ := ok_of_run_bind h
      cases hget
      split at h
      · obtain ⟨_, _, habove, h⟩ := ok_of_run_bind h
        exact (ih habove).trans (ensureDirectory_wrote h)
      · exact ensureDirectory_wrote h

theorem writeBelow_wrote (h : (writeBelow path text).run fs = (.ok (), fs')) :
    ∃ place, fs'.locate path = .ok place ∧ fs.Wrote [(place, text)] fs' := by
  have hattempt : ∀ {mid : FileSystem}, (attempt (·.write path text)).run mid = (.ok (), fs') →
      mid.write path text = .ok fs' := by
    intro mid h
    obtain ⟨_, _, hget, h⟩ := ok_of_run_bind h
    cases hget
    dsimp only at h
    cases hwrite : mid.write path text with
    | ok made =>
      rw [hwrite] at h
      cases h
      rfl
    | error fault =>
      rw [hwrite] at h
      cases h
  have hdone : ∀ {mid : FileSystem}, fs.Wrote [] mid →
      (attempt (·.write path text)).run mid = (.ok (), fs') →
        ∃ place, fs'.locate path = .ok place ∧ fs.Wrote [(place, text)] fs' := by
    intro mid hmid h
    obtain ⟨place, hlocate, hwrote⟩ := write_wrote (hattempt h)
    exact ⟨place, hwrote.locate hlocate, hmid.trans hwrote⟩
  unfold writeBelow at h
  cases hparent : Path.parent? path with
  | none =>
    rw [hparent] at h
    exact hdone (Wrote.refl _) h
  | some parent =>
    rw [hparent] at h
    obtain ⟨_, mid, habove, h⟩ := ok_of_run_bind h
    exact hdone (makeDirectories_wrote habove) h

def placeOf (fs : FileSystem) (path : String) : List String :=
  match fs.locate path with
  | .ok place => place
  | .error _ => []

theorem placeOf_eq (h : fs.locate path = .ok place) : fs.placeOf path = place := by
  rw [FileSystem.placeOf, h]

theorem mapM_writeBelow_wrote {α : Type} {path text : α → String} :
    ∀ {files : List α} {fs fs' : FileSystem} {paths : List String},
      (files.mapM fun file => do
        writeBelow (path file) (text file)
        pure (path file) : Action (List String)).run fs = (.ok paths, fs') →
      paths = files.map path ∧
        (∀ file ∈ files, fs'.locate (path file) = .ok (fs'.placeOf (path file))) ∧
        fs.Wrote (files.map fun file => (fs'.placeOf (path file), text file)) fs' := by
  intro files
  induction files with
  | nil =>
    intro fs fs' paths h
    cases h
    exact ⟨rfl, by simp, Wrote.refl _⟩
  | cons file rest ih =>
    intro fs fs' paths h
    rw [List.mapM_cons] at h
    obtain ⟨first, mid, hfirst, h⟩ := ok_of_run_bind h
    obtain ⟨_, _, hwrite, hpure⟩ := ok_of_run_bind hfirst
    cases hpure
    obtain ⟨others, _, hothers, hpure⟩ := ok_of_run_bind h
    cases hpure
    obtain ⟨place, hlocate, hwrote⟩ := writeBelow_wrote hwrite
    obtain ⟨rfl, hplaces, hlater⟩ := ih hothers
    have hplace := hlater.locate hlocate
    refine ⟨rfl, fun other hother => ?_, ?_⟩
    · rcases List.mem_cons.mp hother with rfl | hother
      · rw [hplace, placeOf_eq hplace]
      · exact hplaces other hother
    · rw [List.map_cons, placeOf_eq hplace]
      exact hwrote.trans hlater

/-- Files at different places read as they were written. -/
theorem Wrote.read {α : Type} {path text : α → String} {files : List α}
    (h : fs.Wrote (files.map fun file => (fs'.placeOf (path file), text file)) fs')
    (hlocate : ∀ file ∈ files, fs'.locate (path file) = .ok (fs'.placeOf (path file)))
    (hnodup : (files.map fun file => fs'.placeOf (path file)).Nodup) {file : α}
    (hfile : file ∈ files) : fs'.read (path file) = .ok (text file) := by
  have hentry := h.texts (by simpa only [List.map_map, Function.comp_def] using hnodup) _
    (List.mem_map_of_mem hfile)
  exact read_eq (hlocate file hfile) hentry

/-- The place of a directory; an empty path is the current one. -/
def base (fs : FileSystem) (directory : String) : Except FileFault (List String) :=
  if directory.isEmpty then .ok fs.current else fs.locate directory

theorem walk_append {before after : List String} : ∀ {place : List String},
    fs.walk place (before ++ after) = .ok out ↔
      ∃ mid, fs.walk place before = .ok mid ∧ fs.walk mid after = .ok out := by
  induction before with
  | nil =>
    intro place
    constructor
    · exact fun h => ⟨place, rfl, h⟩
    · rintro ⟨mid, hmid, h⟩
      cases hmid
      exact h
  | cons step rest ih =>
    intro place
    rw [List.cons_append, walk, walk]
    cases fs.entry? place with
    | none => simp
    | some entry =>
      cases entry with
      | file other => simp
      | directory =>
        dsimp only
        split
        · exact ih
        · split
          · exact ih
          · split
            · simp
            · exact ih

theorem entry?_of_walk {step : String} {rest : List String}
    (h : fs.walk place (step :: rest) = .ok out) :
    fs.entry? place = some .directory := by
  rw [walk] at h
  cases hentry : fs.entry? place with
  | none =>
    rw [hentry] at h
    cases h
  | some entry =>
    cases entry with
    | file other =>
      rw [hentry] at h
      cases h
    | directory => rfl

theorem walk_forward : ∀ {steps : List String} {place : List String},
    (∀ step ∈ steps, step ≠ "." ∧ step ≠ "..") → fs.walk place steps = .ok out →
      out = place ++ steps.filter (· ≠ "") := by
  intro steps
  induction steps with
  | nil =>
    intro place _ h
    cases h
    simp
  | cons step rest ih =>
    intro place hforward h
    obtain ⟨hdot, hdots⟩ := hforward step (by simp)
    have hrest : ∀ step ∈ rest, step ≠ "." ∧ step ≠ ".." :=
      fun other hother => hforward other (List.mem_cons_of_mem _ hother)
    rw [walk] at h
    split at h
    · cases h
    · cases h
    · by_cases hempty : step = ""
      · rw [if_pos (Or.inl hempty)] at h
        rw [ih hrest h, List.filter_cons_of_neg (by simp [hempty])]
      · rw [if_neg (by simp [hempty, hdot]), if_neg hdots] at h
        split at h
        · cases h
        · rw [ih hrest h, List.filter_cons_of_pos (by simp [hempty]), List.append_assoc]
          rfl

theorem byteLength_append (a b : String) : byteLength (a ++ b) = byteLength a + byteLength b := by
  simp [byteLength, Text.encode]

theorem base_of_walk (hne : directory ≠ "") (hnul : '\x00' ∉ directory.toList)
    (hlong : byteLength directory ≤ pathLimit)
    (hwalk : fs.walk (if Path.isAbsolute directory then [] else fs.current) (Path.steps directory) =
      .ok place) : fs.base directory = .ok place := by
  unfold base
  rw [if_neg (by simpa using hne), locate_iff]
  exact ⟨hnul, hne, hlong, hwalk⟩

theorem walk_idle {steps : List String} (h : fs.walk place steps = .ok out)
    (hthere : fs.entry? out = some .directory) : fs.walk place (steps ++ [""]) = .ok out := by
  refine walk_append.mpr ⟨out, h, ?_⟩
  rw [walk, hthere]
  rfl

/-- A relative path below a directory names a place below that of the directory. -/
theorem locate_join (h : fs.locate (Path.join directory path) = .ok place)
    (hrelative : Path.isAbsolute path = false)
    (hforward : ∀ step ∈ Path.names path, step ≠ "." ∧ step ≠ "..") :
    ∃ base, fs.base directory = .ok base ∧ place = base ++ Path.names path := by
  have hsteps : ∀ step ∈ Path.steps path, step ≠ "." ∧ step ≠ ".." := by
    intro step hstep
    by_cases hempty : step = ""
    · rw [hempty]
      decide
    · exact hforward step (List.mem_filter.mpr ⟨hstep, by simpa using hempty⟩)
  obtain ⟨hnul, -, hlong, hwalk⟩ := locate_iff.mp h
  have hbehind : ∀ {more : String}, Path.join directory path = directory ++ more →
      '\x00' ∉ directory.toList ∧ byteLength directory ≤ pathLimit := by
    intro more hjoin
    rw [hjoin] at hnul hlong
    rw [byteLength_append] at hlong
    exact ⟨fun hmem => hnul (by simp [hmem]), by omega⟩
  rcases Path.join_cases directory hrelative with
    ⟨hempty, hjoin⟩ | ⟨hne, ⟨init, hinit⟩, hjoin⟩ | ⟨hne, hjoin⟩
  · rw [hjoin, hrelative] at hwalk
    exact ⟨fs.current, by simp [base, hempty], walk_forward hsteps hwalk⟩
  · obtain ⟨hnul, hlong⟩ := hbehind hjoin
    have hdirectory : directory = String.ofList init ++ "/" ++ "" := by
      apply String.toList_injective
      simpa using hinit
    have hfull : Path.join directory path = String.ofList init ++ "/" ++ path := by
      apply String.toList_injective
      rw [hjoin]
      simp [hinit]
    have hidle : Path.steps directory = Path.steps (String.ofList init) ++ [""] := by
      rw [hdirectory, Path.steps_append_slash]
      rfl
    rw [Path.isAbsolute_join, hrelative, Bool.or_false, hfull, Path.steps_append_slash] at hwalk
    obtain ⟨mid, hmid, hwalk⟩ := walk_append.mp hwalk
    -- A path that goes on behind a directory is found only if the directory is.
    obtain ⟨step, rest, hcons⟩ : ∃ step rest, Path.steps path = step :: rest :=
      List.exists_cons_of_ne_nil (by simp [Path.steps, Text.pieces_ne_nil])
    have hthere : fs.entry? mid = some .directory := entry?_of_walk (hcons ▸ hwalk)
    exact ⟨mid, base_of_walk hne hnul hlong (hidle ▸ walk_idle hmid hthere),
      walk_forward hsteps hwalk⟩
  · rw [String.append_assoc] at hjoin
    obtain ⟨hnul, hlong⟩ := hbehind hjoin
    rw [Path.isAbsolute_join, hrelative, Bool.or_false, hjoin, ← String.append_assoc,
      Path.steps_append_slash] at hwalk
    obtain ⟨mid, hmid, hwalk⟩ := walk_append.mp hwalk
    exact ⟨mid, base_of_walk hne hnul hlong hmid, walk_forward hsteps hwalk⟩

end SchemaBeans.FileSystem
