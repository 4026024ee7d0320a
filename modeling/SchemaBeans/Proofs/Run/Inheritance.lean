import SchemaBeans.Proofs.Discriminator.Binding
import SchemaBeans.Proofs.Run.Steps

/-! # Inheritance in a finished model

No step of a run closes a cycle of superclasses: a class is given one only after its chain was
looked through. Linking the families looks at two types at a time and at no chain. So the types of a
finished model inherit from themselves exactly if the superclasses of the run and the declared
children of its families make a cycle together. -/
namespace SchemaBeans.Run

open Drafting

variable {ctx : Context} {d : Draft} {steps : List Step} {settings : Settings} {m : Model}

/-- The first type extends the second one, or a waiting family will make it do so. -/
def WillExtend (d : Draft) (a b : TypeId) : Prop :=
  d.graph.Extends a b ∨ ∃ family ∈ d.families, Family.Declares d.graph family a b

theorem finish_gains (hd : Consistent d) (hm : finish settings d = .ok m) :
    Family.Gains (fun a b => ∃ family ∈ d.families, Family.Declares d.graph family a b)
      d.graph m.graph := by
  unfold finish at hm
  obtain ⟨graph, hbind, hpure⟩ := ok_of_bind hm
  cases hpure
  exact Family.bindAll_gains hd.enrolled hd.families hbind

/-- The types of a run never inherit from themselves, and those of the finished model do so only
where what the run has and what its families declare make a cycle. -/
theorem finished_acyclic_iff (h : Reaches ctx {} steps d) (hm : finish settings d = .ok m) :
    d.graph.Acyclic ∧ (m.graph.Acyclic ↔ ∀ id, ¬ Relation.TransGen (WillExtend d) id id) := by
  have hd := h.consistent consistent_empty
  have hextends : m.graph.Extends = WillExtend d := by
    funext a b
    exact propext ((finish_gains hd hm).extends_iff a b)
  refine ⟨hd.acyclic, ?_⟩
  unfold TypeGraph.Acyclic
  rw [hextends]

-- Two classes whose discriminators list each other.
private def mutualContext : Context := ⟨{}, ⟨[], []⟩⟩

private def listing (child : String) : Json :=
  .object [("type", .string "object"),
    ("discriminator", .object [("children", .array [.object [("$ref", .string child)]])])]

private def mutualSteps : List Step :=
  [.register "mem:///a.json" (listing "b.json"), .register "mem:///b.json" (listing "a.json"),
    .generate (.root "mem:///a.json")]

private def mutualStart : Draft :=
  { store := (({} : Store).register "mem:///a.json" (listing "b.json")).register "mem:///b.json"
      (listing "a.json") }

private def mutualDraft : Draft :=
  ((Step.generate (.root "mem:///a.json")).action mutualContext |>.run mutualStart).2

private theorem mutual_reaches : Reaches mutualContext {} mutualSteps mutualDraft :=
  .step (r := .ok ()) rfl (by simp) (.step (r := .ok ()) rfl (by simp)
    (.of_run _ (by decide +kernel) (.done _)))

private theorem mutual_finish : ∃ m, finish {} mutualDraft = .ok m ∧ m.graph.Extends ⟨0⟩ ⟨1⟩ ∧
    m.graph.Extends ⟨1⟩ ⟨0⟩ := by
  have hrun : (finish {} mutualDraft).toOption.any (fun m =>
      decide (m.graph.Extends ⟨0⟩ ⟨1⟩ ∧ m.graph.Extends ⟨1⟩ ⟨0⟩)) = true := by
    decide +kernel
  obtain ⟨m, hm, hextends⟩ := Option.any_eq_true _ _ |>.mp hrun
  exact ⟨m, eq_ok_of_toOption hm, of_decide_eq_true hextends⟩

private theorem not_acyclic_of_mutual {g : TypeGraph} {a b : TypeId} (hab : g.Extends a b)
    (hba : g.Extends b a) : ¬ g.Acyclic :=
  fun hg => hg a (.tail (.single hab) hba)

theorem mutual_will_extend : mutualDraft.graph.Acyclic ∧
    ∃ id, Relation.TransGen (WillExtend mutualDraft) id id := by
  obtain ⟨m, hm, hab, hba⟩ := mutual_finish
  obtain ⟨hacyclic, hiff⟩ := finished_acyclic_iff mutual_reaches hm
  refine ⟨hacyclic, ?_⟩
  by_contra hnone
  exact not_acyclic_of_mutual hab hba (hiff.mpr fun id hid => hnone ⟨id, hid⟩)

theorem finished_cyclic : ¬ ∀ (ctx : Context) (steps : List Step) (d : Draft) (m : Model),
    Reaches ctx {} steps d → finish ctx.settings d = .ok m → m.graph.Acyclic := by
  intro hall
  obtain ⟨m, hm, hab, hba⟩ := mutual_finish
  exact not_acyclic_of_mutual hab hba
    (hall mutualContext mutualSteps mutualDraft m mutual_reaches hm)

end SchemaBeans.Run
