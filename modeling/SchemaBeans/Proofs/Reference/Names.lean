import SchemaBeans.Proofs.Text.Cutting
import SchemaBeans.Reference

/-! # Document names

A name with a scheme, or one resolved against a document with scheme, host and path, is absolute and
stays as it is when it is resolved again, against any document. -/
namespace SchemaBeans.Document

open Text

/-- Steps that stay: none is a dot or two, and only the last one may be empty. -/
def Settled : List (List Char) → Prop
  | [] => True
  | step :: rest => step ≠ ['.'] ∧ step ≠ ['.', '.'] ∧ (step = [] → rest = []) ∧ Settled rest

/-- What `settle` makes of the steps after the first one. -/
def climb (done : List (List Char)) : List (List Char) → List (List Char)
  | [] => done.reverse
  | step :: rest =>
    if step = ['.'] then climb done rest
    else if step = ['.', '.'] then climb done.tail rest
    else if step = [] ∧ rest ≠ [] then climb done rest
    else climb (step :: done) rest

theorem settle_bottom (first : List Char) : ∀ (steps done : List (List Char)),
    settle (done ++ [first]) false steps = first :: climb done steps := by
  intro steps
  induction steps with
  | nil => intro done; simp [settle, climb]
  | cons step rest ih =>
    intro done
    have hpop : (if 1 < (done ++ [first]).length then (done ++ [first]).tail else done ++ [first]) =
        done.tail ++ [first] := by
      cases done <;> simp
    unfold settle climb
    simp only [hpop, ih, true_and]
    split
    · rfl
    · split
      · rfl
      · split
        · rfl
        · exact ih (step :: done)

theorem settle_first {first : List Char} (hdot : first ≠ ['.']) (hdots : first ≠ ['.', '.'])
    (rest : List (List Char)) : settle [] true (first :: rest) = first :: climb [] rest := by
  rw [settle]
  simp only [hdot, hdots, if_false, Bool.true_eq_false, false_and, and_false]
  exact settle_bottom first rest []

theorem mem_settle {step : List Char} : ∀ {steps done : List (List Char)} {first : Bool},
    step ∈ settle done first steps → step ∈ done ∨ step ∈ steps := by
  intro steps
  induction steps with
  | nil => intro done first h; exact .inl (by simpa [settle] using h)
  | cons next rest ih =>
    intro done first h
    rw [settle] at h
    split at h
    · exact (ih h).imp_right (List.mem_cons_of_mem _)
    · split at h
      · refine (ih h).imp (fun hdone => ?_) (List.mem_cons_of_mem _)
        split at hdone
        · exact List.mem_of_mem_tail hdone
        · exact hdone
      · split at h
        · exact (ih h).imp_right (List.mem_cons_of_mem _)
        · rcases ih h with hdone | hrest
          · rcases List.mem_cons.mp hdone with rfl | hdone
            · exact .inr (by simp)
            · exact .inl hdone
          · exact .inr (List.mem_cons_of_mem _ hrest)

theorem Settled.reverse_append {done rest : List (List Char)} (hrest : Settled rest)
    (hdone : ∀ step ∈ done, step ≠ ['.'] ∧ step ≠ ['.', '.'] ∧ step ≠ []) :
    Settled (done.reverse ++ rest) := by
  induction done generalizing rest with
  | nil => exact hrest
  | cons step done ih =>
    obtain ⟨hdot, hdots, hne⟩ := hdone step (by simp)
    rw [List.reverse_cons, List.append_assoc]
    refine ih ⟨hdot, hdots, fun h => absurd h hne, hrest⟩ fun other hother => ?_
    exact hdone other (List.mem_cons_of_mem _ hother)

theorem settled_climb : ∀ (steps done : List (List Char)),
    (∀ step ∈ done, step ≠ ['.'] ∧ step ≠ ['.', '.'] ∧ step ≠ []) → Settled (climb done steps) := by
  intro steps
  induction steps with
  | nil =>
    intro done hdone
    have hempty : Settled [] := trivial
    simpa [climb] using hempty.reverse_append hdone
  | cons step rest ih =>
    intro done hdone
    rw [climb]
    split
    · exact ih done hdone
    · split
      · exact ih _ fun other hother => hdone other (List.mem_of_mem_tail hother)
      · split
        · exact ih done hdone
        · rename_i hdot hdots hinner
          by_cases hempty : step = []
          · -- An empty step that stays is the last one.
            obtain rfl : rest = [] := by
              by_contra hrest
              exact hinner ⟨hempty, hrest⟩
            rw [climb, List.reverse_cons]
            exact Settled.reverse_append ⟨hdot, hdots, fun _ => rfl, trivial⟩ hdone
          · refine ih _ fun other hother => ?_
            rcases List.mem_cons.mp hother with rfl | hother
            · exact ⟨hdot, hdots, hempty⟩
            · exact hdone other hother

theorem climb_settled : ∀ {steps : List (List Char)} (done : List (List Char)), Settled steps →
    climb done steps = done.reverse ++ steps := by
  intro steps
  induction steps with
  | nil => intro done _; simp [climb]
  | cons step rest ih =>
    rintro done ⟨hdot, hdots, hempty, hrest⟩
    rw [climb, if_neg hdot, if_neg hdots, if_neg fun h => h.2 (hempty h.1), ih _ hrest]
    simp

theorem Settled.last_of_empty {before after : List (List Char)}
    (h : Settled (before ++ [] :: after)) : after = [] := by
  induction before with
  | nil => exact h.2.2.1 rfl
  | cons step before ih => exact ih h.2.2.2

/-- Whether this may stand before the first colon of an absolute name. -/
def isScheme : List Char → Bool
  | first :: second :: rest =>
    first.isAlpha && (second :: rest).all fun c => c.isAlphanum || c = '+' || c = '-' || c = '.'
  | _ => false

def Schemed (name : List Char) : Prop :=
  ∃ scheme rest, name = scheme ++ ':' :: rest ∧ isScheme scheme = true

theorem not_mem_scheme {scheme : List Char} (h : isScheme scheme = true) {c : Char}
    (hc : c = ':' ∨ c = '/' ∨ c = '#') : c ∉ scheme := by
  have hnot : c.isAlpha = false ∧ (c.isAlphanum || c = '+' || c = '-' || c = '.') = false := by
    rcases hc with rfl | rfl | rfl <;> decide
  intro hmem
  match scheme, h with
  | first :: second :: rest, h =>
    simp only [isScheme, Bool.and_eq_true, List.all_eq_true] at h
    rcases List.mem_cons.mp hmem with rfl | hrest
    · rw [h.1] at hnot
      exact absurd hnot.1 (by simp)
    · have := h.2 c hrest
      rw [this] at hnot
      exact absurd hnot.2 (by simp)

theorem hasScheme_iff {name : String} : hasScheme name = true ↔ Schemed name.toList := by
  have hvalue : ∀ {scheme rest : List Char}, cutFirst ':' name.toList = some (scheme, rest) →
      hasScheme name = isScheme scheme := by
    intro scheme rest hcut
    unfold hasScheme
    rw [hcut]
    match scheme with
    | [] => rfl
    | [_] => rfl
    | _ :: _ :: _ => rfl
  constructor
  · intro h
    cases hcut : cutFirst ':' name.toList with
    | none =>
      unfold hasScheme at h
      rw [hcut] at h
      cases h
    | some cut =>
      rw [hvalue hcut] at h
      exact ⟨cut.1, cut.2, (cutFirst_eq_some.mp hcut).1, h⟩
  · rintro ⟨scheme, rest, hname, hscheme⟩
    rw [hvalue (cutFirst_eq_some.mpr ⟨hname, not_mem_scheme hscheme (.inl rfl)⟩), hscheme]

/-- What may stand behind a host. -/
def Rooted (path : List Char) : Prop := path = [] ∨ ∃ rest, path = '/' :: rest

theorem rooted_dropWhile (rest : List Char) : Rooted (rest.dropWhile (· ≠ '/')) := by
  induction rest with
  | nil => exact .inl rfl
  | cons c rest ih =>
    by_cases hc : c = '/'
    · exact .inr ⟨rest, by simp [hc]⟩
    · simpa [List.dropWhile_cons, hc] using ih

theorem not_mem_takeWhile (rest : List Char) : '/' ∉ rest.takeWhile (· ≠ '/') := by
  induction rest with
  | nil => simp
  | cons c rest ih =>
    by_cases hc : c = '/'
    · simp [hc]
    · simpa [List.takeWhile_cons, hc, Ne.symm hc] using ih

theorem takeWhile_rooted {host other : List Char} (hhost : '/' ∉ host) (hother : Rooted other) :
    (host ++ other).takeWhile (· ≠ '/') = host ∧ (host ++ other).dropWhile (· ≠ '/') = other := by
  induction host with
  | nil =>
    rcases hother with rfl | ⟨rest, rfl⟩
    · exact ⟨rfl, rfl⟩
    · simp
  | cons c host ih =>
    simp only [List.mem_cons, not_or] at hhost
    have hc : c ≠ '/' := Ne.symm hhost.1
    simpa [List.takeWhile_cons, List.dropWhile_cons, hc] using ih hhost.2

theorem authority_length {name authority path : List Char}
    (h : splitAuthority name = some (authority, path)) : 3 ≤ authority.length := by
  fun_induction splitAuthority name generalizing authority path with
  | case1 rest =>
    obtain ⟨rfl, rfl⟩ := Prod.mk.inj (Option.some.inj h)
    simp
  | case2 => cases h
  | case3 c rest _ ih =>
    obtain ⟨⟨inner, innerPath⟩, hinner, heq⟩ := Option.map_eq_some_iff.mp h
    obtain ⟨rfl, rfl⟩ := Prod.mk.inj heq
    exact Nat.le_succ_of_le (ih hinner)

/-- A host ends at the first slash behind it, whatever the path. -/
theorem splitAuthority_some {name authority path : List Char}
    (h : splitAuthority name = some (authority, path)) :
    name = authority ++ path ∧ Rooted path ∧
      ∀ other, Rooted other → splitAuthority (authority ++ other) = some (authority, other) := by
  fun_induction splitAuthority name generalizing authority path with
  | case1 rest =>
    obtain ⟨rfl, rfl⟩ := Prod.mk.inj (Option.some.inj h)
    refine ⟨by simp, rooted_dropWhile rest, fun other hother => ?_⟩
    obtain ⟨htake, hdrop⟩ := takeWhile_rooted (not_mem_takeWhile rest) hother
    simp only [List.cons_append, splitAuthority, htake, hdrop]
  | case2 => cases h
  | case3 c rest hnot ih =>
    obtain ⟨⟨inner, innerPath⟩, hinner, heq⟩ := Option.map_eq_some_iff.mp h
    obtain ⟨rfl, rfl⟩ := Prod.mk.inj heq
    obtain ⟨hrest, hrooted, hother⟩ := ih hinner
    refine ⟨by rw [hrest]; rfl, hrooted, fun other ho => ?_⟩
    have hlong := authority_length hinner
    match inner, hlong with
    | first :: second :: inner, _ =>
      rw [List.cons_append, splitAuthority, hother other ho]
      · rfl
      · rintro tail rfl heq
        simp only [List.cons_append, List.cons.injEq] at heq
        obtain ⟨rfl, rfl, -⟩ := heq
        exact hnot _ rfl hrest

theorem exists_of_splitAuthority {name authority path : List Char}
    (h : splitAuthority name = some (authority, path)) :
    ∃ before after, name = before ++ ':' :: '/' :: '/' :: after := by
  fun_induction splitAuthority name generalizing authority path with
  | case1 rest => exact ⟨[], rest, rfl⟩
  | case2 => cases h
  | case3 c rest _ ih =>
    obtain ⟨⟨inner, innerPath⟩, hinner, -⟩ := Option.map_eq_some_iff.mp h
    obtain ⟨before, after, rfl⟩ := ih hinner
    exact ⟨c :: before, after, rfl⟩

theorem scheme_of_authority {scheme rest authority path : List Char} (hscheme : ':' ∉ scheme)
    (h : splitAuthority (scheme ++ ':' :: rest) = some (authority, path)) :
    ∃ behind, authority = scheme ++ ':' :: behind := by
  induction scheme generalizing authority path with
  | nil =>
    rw [List.nil_append] at h
    unfold splitAuthority at h
    split at h
    · cases h
      exact ⟨_, rfl⟩
    · cases h
    · rename_i heq
      obtain ⟨rfl, rfl⟩ := List.cons.inj heq
      obtain ⟨⟨inner, _⟩, _, heq⟩ := Option.map_eq_some_iff.mp h
      cases heq
      exact ⟨inner, rfl⟩
  | cons c scheme ih =>
    simp only [List.mem_cons, not_or] at hscheme
    rw [List.cons_append] at h
    unfold splitAuthority at h
    split at h
    · rename_i heq
      exact absurd (List.cons.inj heq).1.symm hscheme.1
    · cases h
    · rename_i heq
      obtain ⟨rfl, rfl⟩ := List.cons.inj heq
      obtain ⟨⟨inner, _⟩, hinner, heq⟩ := Option.map_eq_some_iff.mp h
      cases heq
      obtain ⟨behind, rfl⟩ := ih hscheme.2 hinner
      exact ⟨behind, rfl⟩

/-- A path in its one form. -/
def cleaned (path : List Char) : List Char := join ['/'] (settle [] true (pieces '/' path))

theorem normal_of_authority {name authority path : List Char}
    (h : splitAuthority name = some (authority, path)) : normal name = authority ++
    cleaned path := by
  simp [normal, split, h, cleaned]

theorem normal_of_none {name : List Char} (h : splitAuthority name = none) :
    normal name = cleaned name := by
  simp [normal, split, h, cleaned]

section Cleaned

variable {path first : List Char} {rest : List (List Char)}

theorem pieces_cleaned (hpieces : pieces '/' path = first :: rest) (hdot : first ≠ ['.'])
    (hdots : first ≠ ['.', '.']) : pieces '/' (cleaned path) = first :: climb [] rest := by
  unfold cleaned
  rw [hpieces, settle_first hdot hdots]
  refine pieces_join (by simp) fun step hstep => ?_
  rw [← settle_first hdot hdots, ← hpieces] at hstep
  exact not_mem_of_mem_pieces ((mem_settle hstep).resolve_left List.not_mem_nil)

theorem cleaned_eq (hpieces : pieces '/' path = first :: rest) (hdot : first ≠ ['.'])
    (hdots : first ≠ ['.', '.']) : cleaned path = join ['/'] (first :: climb [] rest) := by
  rw [cleaned, hpieces, settle_first hdot hdots]

theorem cleaned_cleaned (hpieces : pieces '/' path = first :: rest) (hdot : first ≠ ['.'])
    (hdots : first ≠ ['.', '.']) : cleaned (cleaned path) = cleaned path := by
  have hagain := pieces_cleaned hpieces hdot hdots
  rw [cleaned_eq hagain hdot hdots, cleaned_eq hpieces hdot hdots,
    climb_settled [] (settled_climb rest [] (by simp))]
  rfl

theorem pieces_rooted (h : Rooted path) : ∃ rest, pieces '/' path = [] :: rest := by
  rcases h with rfl | ⟨rest, rfl⟩
  · exact ⟨[], rfl⟩
  · exact ⟨pieces '/' rest, by simp [pieces]⟩

theorem Rooted.cleaned (h : Rooted path) : Rooted (cleaned path) := by
  obtain ⟨rest, hrest⟩ := pieces_rooted h
  rw [cleaned_eq hrest (by simp) (by simp)]
  by_cases hnone : climb [] rest = []
  · rw [hnone]
    exact .inl rfl
  · rw [join_cons hnone]
    exact .inr ⟨_, rfl⟩

theorem mem_cleaned {c : Char} (h : c ∈ Document.cleaned path) : c = '/' ∨ c ∈ path := by
  refine (mem_join h).imp (by simp) fun ⟨step, hstep, hc⟩ => ?_
  exact mem_of_mem_pieces ((mem_settle hstep).resolve_left List.not_mem_nil) hc

end Cleaned

/-- An absolute name of a whole document, in its one form. -/
structure Absolute (name : List Char) : Prop where
  schemed : Schemed name
  normal : normal name = name
  whole : '#' ∉ name

theorem absolute_of_authority {name authority path : List Char} (hname : Schemed name)
    (h : splitAuthority name = some (authority, path)) {other : List Char} (hother : Rooted other)
    (hwhole : '#' ∉ authority ++ other) : Absolute (normal (authority ++ other)) := by
  obtain ⟨scheme, rest, rfl, hscheme⟩ := hname
  obtain ⟨behind, rfl⟩ := scheme_of_authority (not_mem_scheme hscheme (.inl rfl)) h
  have hsplit := (splitAuthority_some h).2.2
  obtain ⟨steps, hsteps⟩ := pieces_rooted hother
  have hnormal := normal_of_authority (hsplit other hother)
  refine ⟨⟨scheme, behind ++ cleaned other, by rw [hnormal]; simp, hscheme⟩, ?_, ?_⟩
  · rw [hnormal, normal_of_authority (hsplit _ hother.cleaned),
      cleaned_cleaned hsteps (by simp) (by simp)]
  · rw [hnormal]
    intro hmem
    rcases List.mem_append.mp hmem with hmem | hmem
    · exact hwhole (List.mem_append_left _ hmem)
    · exact hwhole (List.mem_append_right _ ((mem_cleaned hmem).resolve_left (by decide)))

theorem pieces_prefix {start : List Char} (hstart : '/' ∉ start) (rest : List Char) :
    ∃ piece others, pieces '/' (start ++ rest) = (start ++ piece) :: others := by
  induction start with
  | nil =>
    cases hp : pieces '/' rest with
    | nil => exact absurd hp (pieces_ne_nil '/' rest)
    | cons piece others => exact ⟨piece, others, hp⟩
  | cons c start ih =>
    simp only [List.mem_cons, not_or] at hstart
    obtain ⟨piece, others, hp⟩ := ih hstart.2
    exact ⟨piece, others, by simp [pieces, Ne.symm hstart.1, hp]⟩

theorem splitAuthority_cleaned {path first : List Char} {rest : List (List Char)}
    (hpieces : pieces '/' path = first :: rest) (hdot : first ≠ ['.'])
    (hdots : first ≠ ['.', '.']) : splitAuthority (cleaned path) = none := by
  cases h : splitAuthority (cleaned path) with
  | none => rfl
  | some cut =>
    obtain ⟨before, after, heq⟩ := exists_of_splitAuthority h
    have hcut : pieces '/' (cleaned path) =
        pieces '/' (before ++ [':']) ++ [] :: pieces '/' after := by
      have htext : before ++ ':' :: '/' :: '/' :: after =
          (before ++ [':']) ++ '/' :: ([] ++ '/' :: after) := by simp
      rw [heq, htext, pieces_append, pieces_append]
      rfl
    rw [pieces_cleaned hpieces hdot hdots] at hcut
    cases hfirst : pieces '/' (before ++ [':']) with
    | nil => exact absurd hfirst (pieces_ne_nil _ _)
    | cons step steps =>
      rw [hfirst] at hcut
      have hsettled := settled_climb rest [] (by simp)
      rw [(List.cons.inj hcut).2] at hsettled
      exact absurd hsettled.last_of_empty (pieces_ne_nil _ _)

theorem Schemed.absolute {name : List Char} (h : Schemed name) (hwhole : '#' ∉ name) :
    Absolute (Document.normal name) := by
  cases hsplit : splitAuthority name with
  | some cut =>
    obtain ⟨authority, path⟩ := cut
    obtain ⟨rfl, hrooted, -⟩ := splitAuthority_some hsplit
    exact absolute_of_authority h hsplit hrooted hwhole
  | none =>
    obtain ⟨scheme, rest, rfl, hscheme⟩ := h
    have hslash : '/' ∉ scheme ++ [':'] := by
      simpa using not_mem_scheme hscheme (.inr (.inl rfl))
    obtain ⟨piece, others, hpieces⟩ := pieces_prefix hslash rest
    have hcolon : ∀ text : List Char, ':' ∉ text → scheme ++ [':'] ++ piece ≠ text := by
      rintro text htext rfl
      simp at htext
    rw [List.append_assoc, List.singleton_append] at hpieces
    have hdot := hcolon ['.'] (by decide)
    have hdots := hcolon ['.', '.'] (by decide)
    have hnormal := normal_of_none hsplit
    have hagain := splitAuthority_cleaned hpieces hdot hdots
    refine ⟨⟨scheme, ?_⟩, ?_, ?_⟩
    · rw [hnormal, cleaned_eq hpieces hdot hdots]
      by_cases hnone : climb [] others = []
      · exact ⟨piece, by rw [hnone]; simp [join], hscheme⟩
      · exact ⟨piece ++ '/' :: join ['/'] (climb [] others), by rw [join_cons hnone]; simp, hscheme⟩
    · rw [hnormal, normal_of_none hagain, cleaned_cleaned hpieces hdot hdots]
    · rw [hnormal]
      exact fun hmem => hwhole ((mem_cleaned hmem).resolve_left (by decide))

/-- The document has a name of the form `scheme://host/path`. -/
structure Hierarchical (name : String) : Prop extends Absolute name.toList where
  path : ∃ authority path, splitAuthority name.toList = some (authority, '/' :: path)

theorem Absolute.resolve {name : String} (h : Absolute name.toList) (base : String) :
    Document.resolve base name = name := by
  unfold Document.resolve
  simp only [hasScheme_iff.mpr h.schemed, if_true, h.normal, String.ofList_toList]

theorem cutLast_of_authority {name authority path : List Char}
    (h : splitAuthority name = some (authority, '/' :: path)) : ∃ above file,
      '/' :: path = above ++ '/' :: file ∧ '/' ∉ file ∧ Rooted above ∧
        cutLast '/' name = some (authority ++ above, file) := by
  obtain ⟨⟨above, file⟩, hcut⟩ : ∃ cut, cutLast '/' ('/' :: path) = some cut :=
    Option.ne_none_iff_exists'.mp fun h => cutLast_eq_none.mp h (by simp)
  obtain ⟨habove, hfile⟩ := cutLast_eq_some.mp hcut
  refine ⟨above, file, habove, hfile, ?_, ?_⟩
  · cases above with
    | nil => exact .inl rfl
    | cons c above =>
      obtain ⟨rfl, -⟩ := List.cons.inj habove
      exact .inr ⟨above, rfl⟩
  · rw [(splitAuthority_some h).1, habove, ← List.append_assoc]
    exact cutLast_append hfile _

theorem Rooted.below {above : List Char} (h : Rooted above) (relative : List Char) :
    Rooted (above ++ '/' :: relative) := by
  rcases h with rfl | ⟨rest, rfl⟩
  · exact .inr ⟨relative, rfl⟩
  · exact .inr ⟨rest ++ '/' :: relative, rfl⟩

theorem resolve_absolute {base : String} (hbase : Hierarchical base) {relative : String}
    (hwhole : '#' ∉ relative.toList) : Absolute (resolve base relative).toList := by
  obtain ⟨authority, path, hsplit⟩ := hbase.path
  have hname := (splitAuthority_some hsplit).1
  have hhost : '#' ∉ authority :=
    fun h => hbase.whole (by rw [hname]; exact List.mem_append_left _ h)
  have hbehind : ∀ {other : List Char}, Rooted other → '#' ∉ other →
      Absolute (normal (authority ++ other)) := fun hrooted hother =>
    absolute_of_authority hbase.schemed hsplit hrooted (by simp [hhost, hother])
  unfold resolve
  dsimp only
  split
  · rename_i hscheme
    rw [String.toList_ofList]
    exact (hasScheme_iff.mp hscheme).absolute hwhole
  · split
    · rename_i hslash
      rw [String.toList_ofList, split, hsplit]
      obtain ⟨rest, hrest⟩ := List.head?_eq_some_iff.mp hslash
      exact hbehind (.inr ⟨rest, hrest⟩) hwhole
    · obtain ⟨above, file, habove, -, hrooted, hdirectory⟩ := cutLast_of_authority hsplit
      have habsent : '#' ∉ above := fun h => hbase.whole (by
        rw [hname, habove]
        simp [h])
      rw [String.toList_ofList, hdirectory]
      simpa using hbehind (hrooted.below relative.toList) (by simp [habsent, hwhole])

end SchemaBeans.Document
