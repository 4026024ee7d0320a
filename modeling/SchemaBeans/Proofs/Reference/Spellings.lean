import SchemaBeans.Proofs.Reference.Names

/-! # Spellings of relative names

A relative name asks for steps from the directory of the document it stands in, or from the root
if it starts with a slash. What it is resolved to depends on these steps alone, and a step that
stays or goes down and up again does not count among them. So all spellings of a way end in one
name, which has the scheme and the host of the document and a path without any such step. -/
namespace SchemaBeans.Document

open Text

/-- Steps that lead nowhere: staying, or going down and up again. -/
inductive Idle : List Char → Prop
  | here : Idle ['.', '/']
  | back {down : List Char} (hne : down ≠ []) (hdot : down ≠ ['.']) (hdots : down ≠ ['.', '.'])
      (hslash : '/' ∉ down) (hcolon : ':' ∉ down) : Idle (down ++ ['/', '.', '.', '/'])

/-- The second name takes idle steps on the way of the first one: after a slash, or at the start of
a name that has no slash there. -/
inductive Detour : List Char → List Char → Prop
  | start {name idle : List Char} (hname : name.head? ≠ some '/') (h : Idle idle) :
      Detour name (idle ++ name)
  | slash {before after idle : List Char} (h : Idle idle) :
      Detour (before ++ '/' :: after) (before ++ '/' :: (idle ++ after))

variable {before after idle name other : List Char}

theorem Idle.first (h : Idle idle) : ∃ down rest, idle = down ++ '/' :: rest ∧ down ≠ [] ∧
    '/' ∉ down ∧ ':' ∉ down := by
  cases h with
  | here => exact ⟨['.'], [], rfl, by decide, by decide, by decide⟩
  | back hne _ _ hslash hcolon => exact ⟨_, _, rfl, hne, hslash, hcolon⟩

theorem climb_idle (h : Idle idle) (done : List (List Char)) (after : List Char) :
    climb done (pieces '/' (idle ++ after)) = climb done (pieces '/' after) := by
  cases h with
  | here => simp [pieces, climb]
  | @back down hne hdot hdots hslash hcolon =>
    have hpieces : pieces '/' (down ++ ['/', '.', '.', '/'] ++ after) =
        down :: ['.', '.'] :: pieces '/' after := by
      have htext : down ++ ['/', '.', '.', '/'] ++ after =
          down ++ '/' :: (['.', '.'] ++ '/' :: after) := by simp
      rw [htext, pieces_append, pieces_append, pieces_of_not_mem hslash]
      rfl
    rw [hpieces]
    simp [climb, hne, hdot, hdots]

theorem climb_append_congr {left right : List (List Char)} (hleft : left ≠ []) (hright : right ≠ [])
    (h : ∀ done, climb done left = climb done right) : ∀ (steps done : List (List Char)),
      climb done (steps ++ left) = climb done (steps ++ right) := by
  intro steps
  induction steps with
  | nil => exact h
  | cons step steps ih =>
    intro done
    -- Neither row ends here, so an empty step is none of the last ones.
    have hinner : steps ++ left ≠ [] := List.append_ne_nil_of_right_ne_nil steps hleft
    have hinner' : steps ++ right ≠ [] := List.append_ne_nil_of_right_ne_nil steps hright
    simp only [List.cons_append, climb, ih, hinner, hinner', ne_eq, not_false_eq_true, and_true]

theorem schemed_slash_iff : Schemed (before ++ '/' :: after) ↔ Schemed before := by
  constructor
  · rintro ⟨scheme, rest, heq, hscheme⟩
    have hslash := not_mem_scheme hscheme (.inr (.inl rfl))
    rcases List.append_eq_append_iff.mp heq with ⟨behind, rfl, hrest⟩ | ⟨behind, rfl, hrest⟩
    · cases behind with
      | nil => simp at hrest
      | cons c behind =>
        obtain ⟨rfl, -⟩ := List.cons.inj hrest
        exact absurd (List.mem_append_right before List.mem_cons_self) hslash
    · cases behind with
      | nil => simp at hrest
      | cons c behind =>
        obtain ⟨rfl, -⟩ := List.cons.inj hrest
        exact ⟨scheme, behind, rfl, hscheme⟩
  · rintro ⟨scheme, rest, rfl, hscheme⟩
    exact ⟨scheme, rest ++ '/' :: after, by simp, hscheme⟩

theorem Detour.not_schemed (h : Detour name other) (hname : ¬ Schemed name) : ¬ Schemed other := by
  cases h with
  | start _ h =>
    obtain ⟨down, rest, rfl, -, -, hcolon⟩ := h.first
    rw [List.append_assoc, List.cons_append, schemed_slash_iff]
    rintro ⟨scheme, rest, rfl, -⟩
    simp at hcolon
  | slash _ =>
    rw [schemed_slash_iff] at hname ⊢
    exact hname

def stepsFrom (path : List Char) : List Char → List (List Char)
  | '/' :: rest => pieces '/' rest
  | relative => (pieces '/' path).dropLast ++ pieces '/' relative

theorem stepsFrom_of_head {path relative : List Char} (h : relative.head? ≠ some '/') :
    stepsFrom path relative = (pieces '/' path).dropLast ++ pieces '/' relative := by
  unfold stepsFrom
  split
  · exact absurd rfl h
  · rfl

theorem stepsFrom_slash (path before : List Char) : ∃ steps, ∀ rest,
    stepsFrom path (before ++ '/' :: rest) = steps ++ pieces '/' rest := by
  cases before with
  | nil => exact ⟨[], fun rest => rfl⟩
  | cons c before =>
    by_cases hc : c = '/'
    · subst hc
      exact ⟨pieces '/' before, fun rest => pieces_append before rest⟩
    · refine ⟨(pieces '/' path).dropLast ++ pieces '/' (c :: before), fun rest => ?_⟩
      rw [stepsFrom_of_head (by simpa using hc), pieces_append, List.append_assoc]

theorem climb_detour (h : Detour name other) (path : List Char) :
    climb [] (stepsFrom path other) = climb [] (stepsFrom path name) := by
  have hidle : ∀ {idle after : List Char}, Idle idle → ∀ steps : List (List Char),
      climb [] (steps ++ pieces '/' (idle ++ after)) = climb [] (steps ++ pieces '/' after) :=
    fun hidle steps => climb_append_congr (pieces_ne_nil _ _) (pieces_ne_nil _ _)
      (fun done => climb_idle hidle done _) steps []
  cases h with
  | start hname h =>
    obtain ⟨down, rest, rfl, hne, hslash, -⟩ := h.first
    have hhead : (down ++ '/' :: rest ++ name).head? ≠ some '/' := by
      cases down with
      | nil => exact absurd rfl hne
      | cons c down => simpa using Ne.symm (List.ne_of_not_mem_cons hslash)
    rw [stepsFrom_of_head hname, stepsFrom_of_head hhead]
    exact hidle h _
  | @slash before after idle h =>
    obtain ⟨steps, hsteps⟩ := stepsFrom_slash path before
    rw [hsteps, hsteps]
    exact hidle h _

structure Located (name scheme host path : List Char) : Prop where
  text : name = scheme ++ "://".toList ++ host ++ '/' :: path
  scheme : ':' ∉ scheme
  host : '/' ∉ host

variable {scheme host path : List Char}

theorem splitAuthority_located (hscheme : ':' ∉ scheme) (hhost : '/' ∉ host) {path : List Char}
    (hpath : Rooted path) : splitAuthority (scheme ++ "://".toList ++ host ++ path) =
      some (scheme ++ "://".toList ++ host, path) := by
  induction scheme with
  | nil =>
    obtain ⟨htake, hdrop⟩ := takeWhile_rooted hhost hpath
    show splitAuthority (':' :: '/' :: '/' :: (host ++ path)) = _
    rw [splitAuthority, htake, hdrop]
    rfl
  | cons c scheme ih =>
    simp only [List.mem_cons, not_or] at hscheme
    have hrest := ih hscheme.2
    simp only [List.cons_append, List.append_assoc] at hrest ⊢
    rw [splitAuthority, hrest]
    · rfl
    · rintro tail rfl
      exact absurd rfl hscheme.1

theorem resolve_located {base relative : String} (hbase : Located base.toList scheme host path)
    (hrelative : hasScheme relative = false) : ∃ asked,
      resolve base relative =
        String.ofList (scheme ++ "://".toList ++ host ++ cleaned asked) ∧
      Rooted asked ∧ pieces '/' asked = [] :: stepsFrom path relative.toList := by
  have hauthority : ∀ {asked : List Char}, Rooted asked →
      splitAuthority (scheme ++ "://".toList ++ host ++ asked) =
        some (scheme ++ "://".toList ++ host, asked) :=
    fun hasked => splitAuthority_located hbase.scheme hbase.host hasked
  have hsplit := hauthority (.inr ⟨path, rfl⟩)
  rw [← hbase.text] at hsplit
  unfold resolve
  simp only [hrelative, Bool.false_eq_true, if_false]
  split
  · rename_i hslash
    obtain ⟨rest, hrest⟩ := List.head?_eq_some_iff.mp hslash
    refine ⟨relative.toList, ?_, .inr ⟨rest, hrest⟩, by rw [hrest]; rfl⟩
    rw [split, hsplit, ← normal_of_authority (hauthority (.inr ⟨rest, hrest⟩))]
    rfl
  · rename_i hslash
    obtain ⟨above, file, habove, hfile, hrooted, hdirectory⟩ := cutLast_of_authority hsplit
    have hsteps : pieces '/' above = [] :: (pieces '/' path).dropLast := by
      have hpieces : pieces '/' ('/' :: path) = pieces '/' above ++ [file] := by
        rw [habove, pieces_append, pieces_of_not_mem hfile]
      have hdrop := congrArg List.dropLast hpieces
      rw [List.dropLast_concat] at hdrop
      rw [← hdrop]
      exact List.dropLast_cons_of_ne_nil (pieces_ne_nil '/' path)
    refine ⟨above ++ '/' :: relative.toList, ?_, hrooted.below _, ?_⟩
    · rw [hdirectory, ← normal_of_authority (hauthority (hrooted.below _)), List.append_assoc]
    · rw [pieces_append, hsteps, stepsFrom_of_head hslash, List.cons_append]

/-- A name without a scheme that is resolved in a document keeps the scheme and the host of that.
Its path is the way that the name asks for without idle steps, none of which leads above the root;
so it stays as it is from then on, and every other spelling of the way is resolved to the same. -/
theorem resolve_spelled_once {base relative : String} (hbase : Located base.toList scheme host path)
    (hrelative : hasScheme relative = false) :
    (∃ found, (resolve base relative).toList = scheme ++ "://".toList ++ host ++ found ∧
      pieces '/' found = [] :: climb [] (stepsFrom path relative.toList) ∧
      Settled (climb [] (stepsFrom path relative.toList))) ∧
    normal (resolve base relative).toList = (resolve base relative).toList ∧
    ∀ other : String, Detour relative.toList other.toList →
      resolve base other = resolve base relative := by
  obtain ⟨asked, hresolve, hrooted, hpieces⟩ := resolve_located hbase hrelative
  refine ⟨⟨cleaned asked, ?_, ?_, settled_climb _ [] (by simp)⟩, ?_, fun other hother => ?_⟩
  · rw [hresolve, String.toList_ofList]
  · exact pieces_cleaned hpieces (by decide) (by decide)
  · rw [hresolve, String.toList_ofList, normal_of_authority
      (splitAuthority_located hbase.scheme hbase.host hrooted.cleaned),
      cleaned_cleaned hpieces (by decide) (by decide)]
  · have hplain : hasScheme other = false := by
      rw [← Bool.not_eq_true, hasScheme_iff] at hrelative ⊢
      exact hother.not_schemed hrelative
    obtain ⟨detour, hdetour, -, hsteps⟩ := resolve_located hbase hplain
    rw [hdetour, hresolve, cleaned_eq hsteps (by decide) (by decide),
      cleaned_eq hpieces (by decide) (by decide), climb_detour hother]

theorem resolve_spelled_once_above :
    Located "mem://host/a//b.json".toList "mem".toList "host".toList "a//b.json".toList ∧
    hasScheme "../../d/e.json" = false ∧
    Detour "../../d/e.json".toList "../../é/../d/e.json".toList ∧
    resolve "mem://host/a//b.json" "../../é/../d/e.json" = "mem://host/d/e.json" := by
  have hbase : Located "mem://host/a//b.json".toList "mem".toList "host".toList
      "a//b.json".toList := ⟨by decide, by decide, by decide⟩
  have hrelative : hasScheme "../../d/e.json" = false := by decide
  have hidle : Idle "é/../".toList :=
    @Idle.back ['é'] (by decide) (by decide) (by decide) (by decide) (by decide)
  have hdetour : Detour "../../d/e.json".toList "../../é/../d/e.json".toList :=
    @Detour.slash "../..".toList "d/e.json".toList _ hidle
  have hsame := (resolve_spelled_once hbase hrelative).2.2 "../../é/../d/e.json" hdetour
  exact ⟨hbase, hrelative, hdetour, hsame.trans (by decide +kernel)⟩

end SchemaBeans.Document
