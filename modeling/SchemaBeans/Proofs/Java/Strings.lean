import SchemaBeans.Proofs.Java.Literals

/-! # Strings in quotes

A string is written between quotes with its backslashes, quotes and ends of lines escaped. The
translation of Unicode escapes comes first, and it finds no eligible escape there: what is
written has its backslashes in pairs or in front of a mark that is no `u`. So the literal is read
as the string that was written, whatever stands behind it. -/
namespace SchemaBeans.Java

def stringToken? (blocks : Bool) : List Input → Option (List Input × List Input)
  | .char '"' :: rest => if blocks then string? rest else stringBody? rest
  | _ => none

theorem stringToken?_stringLiteral (blocks : Bool) (text : String) (following : List Char) :
    stringToken? blocks (inputs ((stringLiteral text).toList ++ following)) =
      if blocks ∧ text = "" ∧ (inputs following).head? = some (.char '"') then none
      else some (text.toList.map .char, inputs following) := by
  rw [inputs_stringLiteral]
  cases blocks with
  | false => simp [stringToken?, stringBody?_escaped]
  | true => simp [stringToken?, string?_escaped]

/-- What is written for a string is one literal of that string, and the source behind it is left as
it is. A text block takes its place only where the empty string is followed by a quote. Different
strings are written differently. -/
theorem stringLiteral_token (text : String) (following : List Char) :
    stringToken? false (inputs ((stringLiteral text).toList ++ following)) =
      some (text.toList.map .char, inputs following) ∧
    (stringToken? true (inputs ((stringLiteral text).toList ++ following)) =
        some (text.toList.map .char, inputs following) ↔
      ¬ (text = "" ∧ (inputs following).head? = some (.char '"'))) ∧
    Function.Injective escape := by
  refine ⟨by simp [stringToken?_stringLiteral], by simp [stringToken?_stringLiteral], ?_⟩
  intro left right heq
  have hread : ∀ text, stringToken? false (inputs ((stringLiteral text).toList ++ [])) =
      some (text.toList.map .char, inputs []) := fun text => by
    rw [stringToken?_stringLiteral, if_neg (by simp)]
  have hsame : stringLiteral left = stringLiteral right := by rw [stringLiteral, heq, stringLiteral]
  have hboth := (hread left).symm.trans (hsame ▸ hread right)
  have hchars : left.toList.map Input.char = right.toList.map Input.char :=
    congrArg Prod.fst (Option.some.inj hboth)
  exact String.toList_injective
    (List.map_injective_iff.mpr (fun _ _ h => Input.char.inj h) hchars)

example : escape "\\u0041" = "\\\\u0041" := by decide

end SchemaBeans.Java
