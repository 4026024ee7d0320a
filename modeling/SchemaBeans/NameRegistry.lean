import SchemaBeans.Fault
/-!
Qualified names handed out in a run. A name belongs to one schema location; the same location may
ask for it again, another one may not have it.
-/

namespace SchemaBeans

structure TypeId where
  index : Nat
  deriving DecidableEq, Repr, Inhabited

inductive Claim where
  | vacant
  | taken (id : TypeId)
  deriving DecidableEq, Repr

/-- Names with their holders; the newest entry of a name comes first and counts. -/
structure NameRegistry where
  slots : List (String × TypeId × Location) := []
  deriving DecidableEq, Repr, Inhabited

namespace NameRegistry

def claim (registry : NameRegistry) (name : String) (place : Location) : Except Fault Claim :=
  match registry.slots.lookup name with
  | none => .ok .vacant
  | some (id, holder) =>
    if holder = place then .ok (.taken id)
    else .error (.nameConflict name holder.text place.text)

def record (registry : NameRegistry) (name : String) (id : TypeId) (place : Location) :
    NameRegistry :=
  ⟨(name, id, place) :: registry.slots⟩

theorem claim_record (registry : NameRegistry) (name : String) (id : TypeId) (place : Location) :
    (registry.record name id place).claim name place = .ok (.taken id) := by
  simp [claim, record]

end NameRegistry

end SchemaBeans
