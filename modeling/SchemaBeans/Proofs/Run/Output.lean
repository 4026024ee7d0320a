import Mathlib.Tactic.MkIffOfInductiveProp
import SchemaBeans.Proofs.Files.Writing
import SchemaBeans.Proofs.Run.Names
import SchemaBeans.Proofs.TypeGraph.Partition

/-! # The files of a model

Every type that stands in no other is written to a file of its own, below the output directory along
the parts of its name. The parts of a `javaType` are taken as they are: one that starts with a slash
leads away from the directory, and empty parts and slashes let two names lead to one file. All other
names are made of identifiers, so nothing of the kind happens to them. -/
namespace SchemaBeans

def Names.Dotted (text : String) : Prop :=
  ∀ part ∈ Text.pieces '.' text.toList, part ≠ [] ∧ ∀ c ∈ part, Text.isIdentifierChar c = true

def Names.Solid (text : String) : Prop := '/' ∉ text.toList ∧ [] ∉ Text.pieces '.' text.toList

namespace Names

theorem mem_typeName {settings : Settings} (hbefore : settings.classNamePrefix = "")
    (hafter : settings.classNameSuffix = "") {raw : String} {c : Char}
    (h : c ∈ (typeName settings raw).toList) : Text.isIdentifierChar c = true := by
  obtain ⟨first, rest, -, hname, hspelled⟩ := typeName_spelled settings hbefore hafter raw
  rw [hname] at h
  exact hspelled.toUpper.2 c h

theorem Dotted.solid {text : String} (h : Dotted text) : Solid text := by
  constructor
  · intro hslash
    rw [← Text.join_pieces '.' text.toList] at hslash
    rcases Text.mem_join hslash with hsep | ⟨part, hpart, hmem⟩
    · exact absurd (List.mem_singleton.mp hsep) (by decide)
    · exact absurd ((h part hpart).2 '/' hmem) (by decide)
  · exact fun hnil => (h [] hnil).1 rfl

end Names

namespace Drafting

variable {ctx : Context} {base : Nat} {d e : Draft} {settings : Settings}

/-- Package, name and surrounding type are those that the schema of the type asked for. -/
def Dubbed (settings : Settings) (st : Store) (decl : TypeDecl) : Prop :=
  ∃ id, st.id? decl.place = some id ∧ st.Has id ∧ ∃ (g : TypeGraph) (request : Request),
    slot settings g request (st.node id).keywords = ⟨decl.package, decl.name, decl.enclosing⟩

theorem Dubbed.keeps {st u : Store} {decl : TypeDecl} (hg : st.Grows u) {other : TypeDecl}
    (hhead : other.head = decl.head) (h : Dubbed settings st decl) : Dubbed settings u other := by
  obtain ⟨id, hid, hhas, g, request, hslot⟩ := h
  have hplace : other.head.place = decl.head.place := by rw [hhead]
  have hparts : (⟨other.head.package, other.head.name, other.head.enclosing⟩ : Slot) =
      ⟨decl.head.package, decl.head.name, decl.head.enclosing⟩ := by rw [hhead]
  refine ⟨id, ?_, hg.has hhas, g, request, ?_⟩
  · exact hg.index (Eq.trans (congrArg st.id? hplace) hid)
  · rw [hg.node hhas, hslot]
    exact hparts.symm

theorem Move.dubbed (h : Move ctx base d e) (hs : d.store.Sound)
    (hd : ∀ id, d.graph.Has id → Dubbed ctx.settings d.store (d.graph.get id)) :
    ∀ id, e.graph.Has id → Dubbed ctx.settings e.store (e.graph.get id) := by
  have hold : ∀ id, d.graph.Has id → Dubbed ctx.settings e.store (e.graph.get id) :=
    fun id hid => (hd id hid).keeps h.retains.grows (h.keeps.heads id hid).2
  intro id hid
  rcases h.declares_or with ⟨request, node, kind, hdecl, rfl⟩ | ⟨hsize, -⟩
  · rcases TypeGraph.has_insert.mp hid with hin | rfl
    · exact hold id hin
    · have hget := TypeGraph.get_insert_self d.graph
      refine ⟨node, ?_, hdecl.has, d.graph, request, ?_⟩
      · simp only [Drafting.declared, hget]
        exact hs.own hdecl.has
      · simp only [Drafting.declared, hget]
  · exact hold id ((TypeGraph.has_of_size hsize).mp hid)

theorem Leads.dubbed (h : Leads ctx base d e) (hd : Consistent d)
    (hdubbed : ∀ id, d.graph.Has id → Dubbed ctx.settings d.store (d.graph.get id)) :
    ∀ id, e.graph.Has id → Dubbed ctx.settings e.store (e.graph.get id) := by
  induction h with
  | refl => exact hdubbed
  | tail hde hm ih => exact hm.dubbed (Leads.consistent hde hd).store ih

/-- What the settings make tidy names of: no prefix, no suffix, and a package of identifiers. -/
structure Neat (settings : Settings) : Prop where
  before : settings.classNamePrefix = ""
  after : settings.classNameSuffix = ""
  package : settings.targetPackage = "" ∨ Names.Dotted settings.targetPackage

theorem slot_tidy (hneat : Neat settings) {g : TypeGraph} {request : Request} {k : Keywords}
    (htop : (slot settings g request k).enclosing = none)
    (hjava : ∀ javaType, k.javaType = some javaType → Names.Solid javaType) :
    Java.Tidy (slot settings g request k).package (slot settings g request k).name := by
  have hpackage : '/' ∉ settings.targetPackage.toList ∧
      (settings.targetPackage = "" ∨ [] ∉ Text.pieces '.' settings.targetPackage.toList) := by
    rcases hneat.package with hempty | hdotted
    · rw [hempty]
      exact ⟨by decide, Or.inl rfl⟩
    · exact ⟨hdotted.solid.1, Or.inr hdotted.solid.2⟩
  unfold slot at htop ⊢
  cases hk : k.javaType with
  | some javaType =>
    obtain ⟨hslash, hparts⟩ := hjava javaType hk
    dsimp only
    cases hcut : Text.cutLast '.' javaType.toList with
    | none => exact ⟨hpackage.2, hpackage.1, hslash⟩
    | some cut =>
      obtain ⟨package, simple⟩ := cut
      obtain ⟨hchars, -⟩ := Text.cutLast_eq_some.mp hcut
      rw [hchars] at hslash hparts
      rw [Text.pieces_append] at hparts
      simp only [List.mem_append, List.mem_cons, not_or] at hslash hparts
      refine ⟨Or.inr ?_, ?_, ?_⟩
      · rw [String.toList_ofList]
        exact hparts.1
      · rw [String.toList_ofList]
        exact hslash.1
      · rw [String.toList_ofList]
        exact hslash.2.2
  | none =>
    rw [hk] at htop
    dsimp only at htop ⊢
    cases hplace : request.placement with
    | inside owner =>
      rw [hplace] at htop
      cases htop
    | topLevel =>
      refine ⟨hpackage.2, hpackage.1, fun hslash => ?_⟩
      exact absurd (Names.mem_typeName hneat.before hneat.after hslash) (by decide)

end Drafting

namespace Model

def file (m : Model) (id : TypeId) : Java.SourceFile :=
  Java.sourceFile m.settings m.graph m.decorations id

/-- The names on the way from the output directory to the file of a type. -/
def route (m : Model) (id : TypeId) : List String :=
  Java.route (m.graph.get id).package (m.graph.get id).name

/-- A part of the name of a type is an absolute path. -/
def Rooted (m : Model) (id : TypeId) : Prop :=
  Java.Rooted (m.graph.get id).package (m.graph.get id).name

/-- Every type that stands in no other has a file of its own strictly below the directory, which
reads as its text, and besides these files there are only new directories. -/
structure WritesBelow (m : Model) (directory : String) (fs fs' : FileSystem) : Prop where
  below : ∀ id ∈ m.graph.topLevel, ∃ base rest, fs'.base directory = .ok base ∧ rest ≠ [] ∧
    fs'.locate (target directory (m.file id)) = .ok (base ++ rest)
  apart : ∀ a ∈ m.graph.topLevel, ∀ b ∈ m.graph.topLevel,
    fs'.locate (target directory (m.file a)) = fs'.locate (target directory (m.file b)) → a = b
  texts : ∀ id ∈ m.graph.topLevel,
    fs'.read (target directory (m.file id)) = .ok (m.file id).contents
  others : ∀ place,
    (∀ id ∈ m.graph.topLevel, fs'.locate (target directory (m.file id)) ≠ .ok place) →
      fs'.entry? place = fs.entry? place ∨
        fs.entry? place = none ∧ fs'.entry? place = some .directory

variable {m : Model} {directory : String} {fs fs' : FileSystem} {paths : List String} {id : TypeId}

theorem sourceFiles_perm (m : Model) : m.sourceFiles.Perm (m.graph.topLevel.map m.file) :=
  List.mergeSort_perm _ _

theorem map_sourceFiles_perm {β : Type} (m : Model) (f : Java.SourceFile → β) :
    (m.sourceFiles.map f).Perm (m.graph.topLevel.map fun id => f (m.file id)) := by
  simpa only [List.map_map, Function.comp_def] using (sourceFiles_perm m).map f

theorem mem_sourceFiles {file : Java.SourceFile} :
    file ∈ m.sourceFiles ↔ ∃ id ∈ m.graph.topLevel, m.file id = file := by
  rw [(sourceFiles_perm m).mem_iff, List.mem_map]

theorem write_wrote (hw : (m.write directory).run fs = (.ok paths, fs')) :
    paths = m.sourceFiles.map (target directory) ∧
      (∀ file ∈ m.sourceFiles, fs'.locate (target directory file) =
        .ok (fs'.placeOf (target directory file))) ∧
      fs.Wrote (m.sourceFiles.map fun file =>
        (fs'.placeOf (target directory file), file.contents)) fs' :=
  FileSystem.mapM_writeBelow_wrote hw

theorem write_place (hdotless : m.graph.Dotless)
    (hw : (m.write directory).run fs = (.ok paths, fs'))
    (hid : id ∈ m.graph.topLevel) (hrooted : ¬ m.Rooted id) :
    ∃ base, fs'.base directory = .ok base ∧
      fs'.locate (target directory (m.file id)) = .ok (base ++ m.route id) := by
  have hlocate := (write_wrote hw).2.1 _ (mem_sourceFiles.mpr ⟨id, hid, rfl⟩)
  have hnames : Path.names (m.file id).path = m.route id := Java.names_sourcePath hrooted
  have hhas : m.graph.Has id := TypeGraph.mem_ids.mp (List.mem_filter.mp hid).1
  obtain ⟨base, hbase, hplace⟩ :=
    FileSystem.locate_join hlocate (Java.isAbsolute_sourcePath hrooted)
    fun step hstep => Java.forward_of_mem_route (hdotless id hhas) (hnames ▸ hstep)
  refine ⟨base, hbase, ?_⟩
  rw [hlocate, hplace, hnames]

theorem target_rooted (hrooted : m.Rooted id) (directory : String) :
    target directory (m.file id) = (m.file id).path :=
  Path.join_absolute (Java.isAbsolute_sourcePath_iff.mpr hrooted)

/-- Files of relative paths are kept apart by the names on their way, and by nothing else. -/
theorem writesBelow_iff (hdotless : m.graph.Dotless)
    (hw : (m.write directory).run fs = (.ok paths, fs'))
    (hrooted : ∀ id ∈ m.graph.topLevel, ¬ m.Rooted id) :
    m.WritesBelow directory fs fs' ↔
      ∀ a ∈ m.graph.topLevel, ∀ b ∈ m.graph.topLevel, m.route a = m.route b → a = b := by
  have hplace : ∀ id ∈ m.graph.topLevel, ∃ base, fs'.base directory = .ok base ∧
      fs'.locate (target directory (m.file id)) = .ok (base ++ m.route id) :=
    fun id hid => write_place hdotless hw hid (hrooted id hid)
  obtain ⟨-, hlocate, hwrote⟩ := write_wrote hw
  constructor
  · intro h a ha b hb hroute
    obtain ⟨base, hbase, hlocatea⟩ := hplace a ha
    obtain ⟨other, hother, hlocateb⟩ := hplace b hb
    cases hbase.symm.trans hother
    exact h.apart a ha b hb (by rw [hlocatea, hlocateb, hroute])
  · intro h
    have hapart : ∀ a ∈ m.graph.topLevel, ∀ b ∈ m.graph.topLevel,
        fs'.placeOf (target directory (m.file a)) = fs'.placeOf (target directory (m.file b)) →
          a = b := by
      intro a ha b hb hsame
      obtain ⟨base, hbase, hlocatea⟩ := hplace a ha
      obtain ⟨other, hother, hlocateb⟩ := hplace b hb
      cases hbase.symm.trans hother
      rw [FileSystem.placeOf_eq hlocatea, FileSystem.placeOf_eq hlocateb] at hsame
      exact h a ha b hb (List.append_cancel_left hsame)
    have hnodup : (m.sourceFiles.map fun file => fs'.placeOf (target directory file)).Nodup := by
      rw [(map_sourceFiles_perm m _).nodup_iff]
      exact List.Nodup.map_on hapart ((TypeGraph.nodup_ids m.graph).filter _)
    constructor
    case below =>
      intro id hid
      obtain ⟨base, hbase, hlocate⟩ := hplace id hid
      exact ⟨base, m.route id, hbase, Java.route_ne_nil, hlocate⟩
    case apart =>
      intro a ha b hb hsame
      exact hapart a ha b hb (by unfold FileSystem.placeOf; rw [hsame])
    case texts =>
      intro id hid
      exact hwrote.read hlocate hnodup (mem_sourceFiles.mpr ⟨id, hid, rfl⟩)
    case others =>
      intro place hnone
      refine hwrote.others place fun hmem => ?_
      simp only [List.map_map, Function.comp_def, List.mem_map] at hmem
      obtain ⟨file, hfile, hplace⟩ := hmem
      obtain ⟨id, hid, hsame⟩ := mem_sourceFiles.mp hfile
      exact hnone id hid (by rw [hsame, hlocate file hfile, hplace])

end Model

namespace Run

open Drafting

variable {ctx : Context} {d : Draft} {steps : List Step} {m : Model}

theorem Reaches.dubbed (h : Reaches ctx {} steps d) :
    ∀ id, d.graph.Has id → Dubbed ctx.settings d.store (d.graph.get id) := by
  have hempty : ∀ id, (({} : Draft).graph).Has id → Dubbed ctx.settings ({} : Draft).store
      ((({} : Draft).graph).get id) := fun id hid => by
    simp [TypeGraph.Has, TypeGraph.size] at hid
  exact (h.invariant
    (P := fun d => ∀ id, d.graph.Has id → Dubbed ctx.settings d.store (d.graph.get id))
    consistent_empty hempty hempty fun _ _ _ hd hdubbed hl => hl.dubbed hd hdubbed).2

def SolidNames (d : Draft) (m : Model) : Prop :=
  ∀ id ∈ m.graph.topLevel, ∀ node, d.store.id? (m.graph.get id).place = some node →
    ∀ javaType, (d.store.node node).keywords.javaType = some javaType → Names.Solid javaType

theorem finish_tidy (h : Reaches ctx {} steps d) (hm : finish ctx.settings d = .ok m)
    (hneat : Neat ctx.settings) (hnames : SolidNames d m) :
    ∀ id ∈ m.graph.topLevel, Java.Tidy (m.graph.get id).package (m.graph.get id).name := by
  intro id hid
  have hgains := finish_gains (h.consistent consistent_empty) hm
  obtain ⟨hin, htop⟩ := List.mem_filter.mp hid
  have hhas : d.graph.Has id := (TypeGraph.has_of_size hgains.size).mp (TypeGraph.mem_ids.mp hin)
  obtain ⟨node, hnode, -, g, request, hslot⟩ :=
    (h.dubbed id hhas).keeps (refl d.store) (hgains.keeps.heads id hhas).2
  have hopen : (slot ctx.settings g request (d.store.node node).keywords).enclosing = none := by
    rw [hslot]
    simpa using htop
  have htidy := slot_tidy hneat hopen (hnames id hid node hnode)
  rwa [hslot] at htidy

/-- A write without a fault writes one file per type that stands in no other. A file strays from the
output directory exactly if a part of the name of its type starts with a slash, and if none does, it
is another type's file exactly if the parts of both names lead the same way. Neither can happen if
no `javaType` has an empty part or a slash. -/
theorem files_below_directory (h : Reaches ctx {} steps d) (hm : finish ctx.settings d = .ok m)
    (hneat : Neat ctx.settings) {directory : String} {fs fs' : FileSystem} {paths : List String}
    (hw : (m.write directory).run fs = (.ok paths, fs')) :
    paths.Perm (m.graph.topLevel.map fun id => Model.target directory (m.file id)) ∧
      (∀ id ∈ m.graph.topLevel, m.Rooted id →
        ∀ other, Model.target other (m.file id) = (m.file id).path) ∧
      (∀ id ∈ m.graph.topLevel, ¬ m.Rooted id → ∃ base, fs'.base directory = .ok base ∧
        m.route id ≠ [] ∧ fs'.locate (Model.target directory (m.file id)) =
        .ok (base ++ m.route id)) ∧
      ((∀ id ∈ m.graph.topLevel, ¬ m.Rooted id) → (m.WritesBelow directory fs fs' ↔
        ∀ a ∈ m.graph.topLevel, ∀ b ∈ m.graph.topLevel, m.route a = m.route b → a = b)) ∧
      (SolidNames d m → m.WritesBelow directory fs fs') := by
  have horderly := (finish_orderly h hm (by rw [hneat.before]; decide)
    (by rw [hneat.after]; decide)).1
  refine ⟨?_, fun id _ hrooted => Model.target_rooted hrooted, fun id hid hrooted => ?_,
    Model.writesBelow_iff horderly.dotless hw, fun hnames => ?_⟩
  · rw [(Model.write_wrote hw).1]
    exact Model.map_sourceFiles_perm m _
  · obtain ⟨base, hbase, hlocate⟩ := Model.write_place horderly.dotless hw hid hrooted
    exact ⟨base, hbase, Java.route_ne_nil, hlocate⟩
  · have htidy := finish_tidy h hm hneat hnames
    refine (Model.writesBelow_iff horderly.dotless hw fun id hid =>
      (htidy id hid).not_rooted).mpr ?_
    intro a ha b hb hroute
    obtain ⟨hpackage, hname⟩ := (htidy a ha).route_inj (htidy b hb) hroute
    have hqualified : ∀ id ∈ m.graph.topLevel, m.graph.Has id ∧ m.graph.qualifiedName id =
        TypeGraph.inPackage (m.graph.get id).package (m.graph.get id).name := by
      intro id hid
      obtain ⟨hin, htop⟩ := List.mem_filter.mp hid
      have hhas := TypeGraph.mem_ids.mp hin
      exact ⟨hhas, TypeGraph.qualifiedName_topLevel horderly.nests hhas (by simpa using htop)⟩
    refine horderly.distinct a b (hqualified a ha).1 (hqualified b hb).1 ?_
    rw [(hqualified a ha).2, (hqualified b hb).2, hpackage, hname]

-- Two classes that name themselves. In the first sample both have files of their own; in the
-- second one the empty part of a name is left out of its path, which is then the path of the
-- other class.
private def pairContext : Context := ⟨{}, ⟨[], []⟩⟩

private def namedClass (javaType : String) : Json :=
  .object [("type", .string "object"), ("javaType", .string javaType)]

private def pairSteps (first second : String) : List Step :=
  [.register "mem:///one.json" (namedClass first), .register "mem:///two.json" (namedClass second),
    .generate (.root "mem:///one.json"), .generate (.root "mem:///two.json")]

private def pairStart (first second : String) : Draft :=
  { store := (({} : Store).register "mem:///one.json" (namedClass first)).register "mem:///two.json"
      (namedClass second) }

private def pairMiddle (first second : String) : Draft :=
  ((Step.generate (.root "mem:///one.json")).action pairContext |>.run (pairStart first second)).2

private def pairDraft (first second : String) : Draft :=
  ((Step.generate (.root "mem:///two.json")).action pairContext |>.run (pairMiddle first second)).2

private def pairModel (first second : String) : Model :=
  ⟨(pairDraft first second).graph, Decoration.decorate {} (pairDraft first second).graph, {}⟩

private def pairFiles (first second : String) : FileSystem :=
  (((pairModel first second).write "out").run ⟨[], []⟩).2

private def writePair (first second : String) : FileSystem.Action (List String) :=
  [(pairModel first second).file ⟨0⟩, (pairModel first second).file ⟨1⟩].mapM fun file => do
    FileSystem.writeBelow (Model.target "out" file) file.contents
    pure (Model.target "out" file)

@[mk_iff] private structure PairOutcome (first second : String) : Prop where
  one : ((Step.generate (.root "mem:///one.json")).action pairContext |>.run
    (pairStart first second)).1.toOption = some ()
  two : ((Step.generate (.root "mem:///two.json")).action pairContext |>.run
    (pairMiddle first second)).1.toOption = some ()
  families : (pairDraft first second).families = []
  topLevel : (pairModel first second).graph.topLevel = [⟨0⟩, ⟨1⟩]
  sorted : Path.le ((pairModel first second).file ⟨0⟩).path
    ((pairModel first second).file ⟨1⟩).path = true
  written : ((writePair first second).run ⟨[], []⟩).1.toOption.isSome = true

section Pair

variable {first second : String}

private theorem pair_succeeds (h : PairOutcome first second) :
    Succeeds pairContext {} (pairSteps first second) (pairDraft first second) :=
  .step rfl (.step rfl (.of_run _ h.one (.of_run _ h.two (.done _))))

private theorem pair_finish (h : PairOutcome first second) :
    finish pairContext.settings (pairDraft first second) = .ok (pairModel first second) := by
  rw [finish, h.families]
  rfl

private theorem pair_written (h : PairOutcome first second) :
    ∃ paths, ((pairModel first second).write "out").run ⟨[], []⟩ =
      (.ok paths, pairFiles first second) := by
  have hfiles : (pairModel first second).sourceFiles =
      [(pairModel first second).file ⟨0⟩, (pairModel first second).file ⟨1⟩] := by
    show (((pairModel first second).graph.topLevel.map (pairModel first second).file).mergeSort
      fun a b => Path.le a.path b.path) = _
    rw [h.topLevel, List.mergeSort_of_pairwise]
    · rfl
    · simpa using h.sorted
  have hwrite : (pairModel first second).write "out" = writePair first second := by
    unfold Model.write writePair
    rw [hfiles]
  obtain ⟨paths, hpaths⟩ := Option.isSome_iff_exists.mp h.written
  rw [← hwrite] at hpaths
  exact ⟨paths, Prod.ext (eq_ok_of_toOption hpaths) rfl⟩

private theorem pair_neat : Neat pairContext.settings := ⟨rfl, rfl, Or.inl rfl⟩

end Pair

private theorem plain_names :
    SolidNames (pairDraft "a.b.C" "a.b.D") (pairModel "a.b.C" "a.b.D") := by
  have hall : ∀ id ∈ (pairModel "a.b.C" "a.b.D").graph.topLevel,
      ∀ node ∈ ((pairDraft "a.b.C" "a.b.D").store.id?
        ((pairModel "a.b.C" "a.b.D").graph.get id).place).toList,
      ∀ javaType ∈ ((pairDraft "a.b.C" "a.b.D").store.node node).keywords.javaType.toList,
        '/' ∉ javaType.toList ∧ [] ∉ Text.pieces '.' javaType.toList := by
    decide +kernel
  intro id hid node hnode javaType hjava
  exact hall id hid node (Option.mem_toList.mpr hnode) javaType (Option.mem_toList.mpr hjava)

theorem files_below_directory_pair : (pairModel "a.b.C" "a.b.D").graph.topLevel = [⟨0⟩, ⟨1⟩] ∧
    (pairModel "a.b.C" "a.b.D").WritesBelow "out" ⟨[], []⟩ (pairFiles "a.b.C" "a.b.D") := by
  have plain : PairOutcome "a.b.C" "a.b.D" := (pairOutcome_iff _ _).mpr (by decide +kernel)
  obtain ⟨paths, hw⟩ := pair_written plain
  obtain ⟨-, -, -, -, hbelow⟩ := files_below_directory (pair_succeeds plain).reaches
    (pair_finish plain) pair_neat hw
  exact ⟨plain.topLevel, hbelow plain_names⟩

/-- A file may be written over by that of another type. -/
theorem file_lost : ¬ ∀ (ctx : Context) (steps : List Step) (d : Draft) (m : Model)
    (directory : String) (fs fs' : FileSystem) (paths : List String), Succeeds ctx {} steps d →
      finish ctx.settings d = .ok m → Neat ctx.settings →
        (m.write directory).run fs = (.ok paths, fs') → m.WritesBelow directory fs fs' := by
  intro hall
  have idle : PairOutcome "a.b.C" "a..b.C" := (pairOutcome_iff _ _).mpr (by decide +kernel)
  have hpath : ((pairModel "a.b.C" "a..b.C").file ⟨0⟩).path =
      ((pairModel "a.b.C" "a..b.C").file ⟨1⟩).path := by decide +kernel
  obtain ⟨paths, hw⟩ := pair_written idle
  have hbelow := hall _ _ _ _ _ _ _ _ (pair_succeeds idle) (pair_finish idle) pair_neat hw
  have hsame := hbelow.apart ⟨0⟩ (by rw [idle.topLevel]; decide) ⟨1⟩ (by rw [idle.topLevel]; decide)
    (by unfold Model.target; rw [hpath])
  exact absurd hsame (by decide)

end Run

end SchemaBeans
