import Mathlib.Tactic.MkIffOfInductiveProp
import SchemaBeans.Proofs.Discriminator.Retention
import SchemaBeans.Proofs.Run.Names

/-! # The families of a finished model

A class notes its family once, while it is being filled, so the waiting families have different
parents. Once a run is finished, each of them is bound as its discriminator declares. -/
namespace SchemaBeans.Run

open Drafting

variable {ctx : Context} {d : Draft} {steps : List Step} {settings : Settings} {m : Model}

/-- In a finished model every family that was waiting is bound, to the children that it declares or
that its parent had once the families before it were bound. -/
theorem families_bound (h : Reaches ctx {} steps d) (hm : finish settings d = .ok m)
    {pre post : List Family} {family : Family} (hfamilies : d.families = pre ++ family :: post) :
    ∃ mid b, Family.bindAll d.graph pre = .ok mid ∧ family.BoundAs mid m.graph b := by
  have hd := h.consistent consistent_empty
  have hvalid := hd.families
  have hclaimed := h.claimed
  unfold finish at hm
  obtain ⟨graph, hbind, hpure⟩ := ok_of_bind hm
  cases hpure
  rw [hfamilies] at hvalid hclaimed hbind
  exact Family.bindAll_bound hd.enrolled h.housed.2 hvalid hclaimed hbind

private def familyContext : Context := ⟨{}, ⟨[], []⟩⟩

private def plainSchema : Json := .object [("type", .string "object")]

private def animalSchema : Json :=
  .object [("type", .string "object"), ("discriminator", .string "species")]

private def dogSchema : Json :=
  .object [("type", .string "object"), ("extends", .object [("$ref", .string "animal.json")])]

private def vehicleSchema : Json :=
  .object [("type", .string "object"), ("discriminator", .object [
    ("propertyName", .string "kind"), ("children", .array [
      .object [("$ref", .string "car.json"), ("value", .string "auto")],
      .object [("className", .string "Truck"), ("value", .string "lorry")]])])]

private def familyStart : Draft :=
  { store := [("mem:///animal.json", animalSchema), ("mem:///dog.json", dogSchema),
      ("mem:///vehicle.json", vehicleSchema), ("mem:///car.json", plainSchema),
      ("mem:///truck.json", plainSchema)].foldl (fun st (name, json) => st.register name json) {} }

private def generating (document : String) (d : Draft) : Except Fault Unit × Draft :=
  (Step.generate (.root document)).action familyContext |>.run d

private def dogDraft : Draft := (generating "mem:///dog.json" familyStart).2

private def truckDraft : Draft := (generating "mem:///truck.json" dogDraft).2

private def familyDraft : Draft := (generating "mem:///vehicle.json" truckDraft).2

private def childrenAfter (parent : TypeId) : Option (List (TypeId × String)) :=
  (finish {} familyDraft).toOption.bind fun m => (m.graph.get parent).binding.map (·.children)

@[mk_iff] private structure FamilyOutcome : Prop where
  dog : (generating "mem:///dog.json" familyStart).1.toOption = some ()
  truck : (generating "mem:///truck.json" dogDraft).1.toOption = some ()
  vehicle : (generating "mem:///vehicle.json" truckDraft).1.toOption = some ()
  parents : familyDraft.families.map (·.parent) = [⟨1⟩, ⟨3⟩]
  declared : familyDraft.families.map (·.children) =
    [[], [(.resolved (.generated ⟨4⟩), some "auto"), (.named "Truck", some "lorry")]]
  implicit : childrenAfter ⟨1⟩ = some [(⟨0⟩, "Dog")]
  listed : childrenAfter ⟨3⟩ = some [(⟨4⟩, "auto"), (⟨2⟩, "lorry")]

private theorem family_outcome : FamilyOutcome :=
  familyOutcome_iff.mpr (by decide +kernel)

private theorem family_succeeds : ∃ steps, Succeeds familyContext {} steps familyDraft :=
  ⟨_, .of_run (.register _ _) rfl (.of_run (.register _ _) rfl (.of_run (.register _ _) rfl
    (.of_run (.register _ _) rfl (.of_run (.register _ _) rfl (.of_run _ family_outcome.dog
      (.of_run _ family_outcome.truck (.of_run _ family_outcome.vehicle (.done _))))))))⟩

/-- What is recorded at the parent of a bound family are the children that the run comes to. -/
private theorem children_of_bound {family : Family} {mid : TypeGraph} {b : Binding}
    {children : List (TypeId × String)} (hm : finish {} familyDraft = .ok m)
    (hb : family.BoundAs mid m.graph b) (h : childrenAfter family.parent = some children) :
    b.children = children := by
  rw [childrenAfter, hm] at h
  have hrecorded := hb.recorded
  simpa [Except.toOption, hrecorded] using h

/-- One family has the children that extend its parent, the other those it declares by a reference
and by a name. -/
theorem families_bound_dog : ∃ m animals vehicles mid later b c, finish {} familyDraft = .ok m ∧
    familyDraft.families = [animals, vehicles] ∧
    animals.BoundAs mid m.graph b ∧ animals.children = [] ∧ b.children = [(⟨0⟩, "Dog")] ∧
    ⟨0⟩ ∈ (m.graph.get ⟨1⟩).subtypes ∧
    vehicles.BoundAs later m.graph c ∧
    vehicles.children =
      [(.resolved (.generated ⟨4⟩), some "auto"), (.named "Truck", some "lorry")] ∧
    c.children = [(⟨4⟩, "auto"), (⟨2⟩, "lorry")] ∧ ⟨2⟩ ∈ (m.graph.get ⟨3⟩).subtypes := by
  obtain ⟨steps, hsucceeds⟩ := family_succeeds
  obtain ⟨m, hm, -⟩ := Option.bind_eq_some_iff.mp family_outcome.implicit
  have hm := eq_ok_of_toOption hm
  obtain ⟨animals, vehicles, hfamilies⟩ :=
    List.length_eq_two.mp
      ((List.length_map _).symm.trans (congrArg List.length family_outcome.parents))
  have hparents := family_outcome.parents
  have hdeclared := family_outcome.declared
  rw [hfamilies] at hparents hdeclared
  obtain ⟨hanimal, hvehicle⟩ : animals.parent = ⟨1⟩ ∧ vehicles.parent = ⟨3⟩ := by
    simpa using hparents
  obtain ⟨hnone, hlisted⟩ : animals.children = [] ∧ vehicles.children =
      [(.resolved (.generated ⟨4⟩), some "auto"), (.named "Truck", some "lorry")] := by
    simpa using hdeclared
  obtain ⟨mid, b, -, hb⟩ := families_bound hsucceeds.reaches hm
    (show familyDraft.families = [] ++ animals :: [vehicles] from hfamilies)
  obtain ⟨later, c, -, hc⟩ := families_bound hsucceeds.reaches hm
    (show familyDraft.families = [animals] ++ vehicles :: [] from hfamilies)
  have hdogs : b.children = [(⟨0⟩, "Dog")] :=
    children_of_bound hm hb (hanimal ▸ family_outcome.implicit)
  have hcars : c.children = [(⟨4⟩, "auto"), (⟨2⟩, "lorry")] :=
    children_of_bound hm hc (hvehicle ▸ family_outcome.listed)
  have hdog := (hb.placed (⟨0⟩, "Dog") (by simp [hdogs])).1
  have htruck := (hc.placed (⟨2⟩, "lorry") (by simp [hcars])).1
  rw [hanimal] at hdog
  rw [hvehicle] at htruck
  exact ⟨m, animals, vehicles, mid, later, b, c, hm, hfamilies, hb, hnone, hdogs, hdog, hc, hlisted,
    hcars, htruck⟩

end SchemaBeans.Run
