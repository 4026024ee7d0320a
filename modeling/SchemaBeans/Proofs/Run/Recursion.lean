import SchemaBeans.Proofs.Generation.Unfolding
import SchemaBeans.Proofs.Run.Steps

/-! # Recursion through a merge

The schema of an `allOf` gets a location of its own, so a class that refers to itself there is met
again at another place each time, and the second class inside it has the name of the first one. -/
namespace SchemaBeans.Run

open Drafting

/-- A class with a property that stands for the class itself is not generated: whatever it is
called, wherever it stands and whatever scalars it has besides, generating it ends in a fault. -/
theorem merged_recursion_fails (ctx : Context) {place : Location} {key : String}
    {members properties : Json.Members} {documents : List (String × Json)} {document : Json}
    (hrecursive : Json.Recursive place key members properties)
    (hdocument : documents.lookup place.document = some document)
    (hcontent : document.lookup? place.pointer = some (.object members))
    (hself : Location.ofReference place.document place.text = .ok place) :
    ∃ fault d, (generate ctx place).run { store := { documents := documents } } =
      (.error fault, d) ∧ fault ≠ .endless := by
  have hends : Ends (generate ctx place) { store := { documents := documents } } fun _ _ => False :=
    generate_fails hrecursive hdocument hcontent hself
  rcases hrun : (generate ctx place).run { store := { documents := documents } } with ⟨r, d⟩
  obtain ⟨hendless, hnot⟩ := hends r d hrun
  cases r with
  | ok type => exact (hnot type rfl).elim
  | error fault => exact ⟨fault, d, rfl, fun h => hendless (congrArg _ h)⟩

-- A list whose tail stands for the list, below a key of its document.
private def chainProperties : Json.Members :=
  [("head", .object [("type", .string "string")]), ("tail", Json.mergeOf "#/definitions/chain")]

private def chainMembers : Json.Members :=
  [("title", .string "Chain"), ("properties", .object chainProperties)]

private def chainDocument : Json :=
  .object [("definitions", .object [("chain", .object chainMembers)])]

private def chainPlace : Location := ⟨"mem:///chain.json", "/definitions/chain"⟩

private theorem chain_recursive :
    Json.Recursive chainPlace "tail" chainMembers chainProperties where
  distinct := by decide
  lacks := by decide
  type := .inl rfl
  listed := rfl
  apart := by decide
  self := ⟨"#/definitions/chain", rfl, eq_ok_of_toOption (by decide +kernel)⟩
  scalars := by
    intro other value hother hvalue
    have hhead : other = "head" ∧ value = .object [("type", .string "string")] := by
      by_cases hsame : other = "head"
      · subst hsame
        exact ⟨rfl, (Option.some.inj hvalue).symm⟩
      · simp [chainProperties, List.lookup_cons, beq_eq_false_iff_ne.mpr hsame,
          beq_eq_false_iff_ne.mpr hother] at hvalue
    obtain ⟨rfl, rfl⟩ := hhead
    exact ⟨_, rfl, by decide, by decide, "string", .string, rfl, rfl⟩

theorem merged_recursion_fails_chain : ∃ fault d, (generate ⟨{}, ⟨[], []⟩⟩ chainPlace).run
    { store := { documents := [("mem:///chain.json", chainDocument)] } } = (.error fault, d) ∧
      fault ≠ .endless :=
  merged_recursion_fails ⟨{}, ⟨[], []⟩⟩ chain_recursive rfl (by rfl)
    (eq_ok_of_toOption (by decide +kernel))

-- A class with a property that stands for the class itself.
private def loopContext : Context := ⟨{}, ⟨[], []⟩⟩

private def loopSchema : Json :=
  .object [("type", .string "object"), ("properties", .object [
    ("p", .object [("allOf", .array [.object [("$ref", .string "#")]])])])]

private def loopStart : Draft := { store := ({} : Store).register "mem:///d.json" loopSchema }

private def conflict? {α : Type} : Except Fault α → Option (String × String × String)
  | .error (.nameConflict name existing requested) => some (name, existing, requested)
  | _ => none

/-- A class that refers to itself through an `allOf` is not generated. -/
theorem merged_recursion_conflicts :
    Reaches loopContext {} [.register "mem:///d.json" loopSchema] loopStart ∧
    conflict? ((generate loopContext (.root "mem:///d.json")).run loopStart).1 =
      some ("D.P", "mem:///d.json#/properties/p/allOf",
        "mem:///d.json#/properties/p/allOf/properties/p/allOf") :=
  ⟨.step (r := .ok ()) rfl (by simp) (.done _), by decide +kernel⟩

end SchemaBeans.Run
