import SchemaBeans.Json.Reader
import SchemaBeans.Proofs.Java.Code

/-! # Unicode escapes

A Java source is translated before it is divided into tokens. A backslash behind an even number of
backslashes is eligible: with one or more `u` and four hexadecimal digits behind it, it stands for a
UTF-16 unit, and with a `u` but no four digits the source is no program. A text without an eligible
`\u` stands for itself. -/
namespace SchemaBeans.Java

/-- What the source is translated to. -/
inductive Input where
  | char (c : Char)
  | half (unit : Nat)
  | malformed
  deriving DecidableEq, Repr

def Input.ofUnit (unit : Nat) : Input :=
  if 0xD800 ≤ unit ∧ unit ≤ 0xDFFF then .half unit else .char (Char.ofNat unit)

theorem Input.ne_ofUnit (unit : Nat) : .malformed ≠ Input.ofUnit unit := by
  unfold Input.ofUnit
  split <;> simp

/-- Where the translation stands. -/
inductive Reading where
  | plain
  | backslash
  | digits (count value : Nat)
  deriving DecidableEq, Repr

def inputsFrom : Reading → List Char → List Input
  | .plain, [] => []
  | .backslash, [] => [.char '\\']
  | .digits _ _, [] => [.malformed]
  | .plain, c :: rest =>
    if c = '\\' then inputsFrom .backslash rest else .char c :: inputsFrom .plain rest
  | .backslash, c :: rest =>
    if c = 'u' then inputsFrom (.digits 0 0) rest
    else .char '\\' :: .char c :: inputsFrom .plain rest
  | .digits count value, c :: rest =>
    if count = 0 ∧ c = 'u' then inputsFrom (.digits 0 0) rest
    else
      match Json.hexValue? c with
      | none => [.malformed]
      | some digit =>
        if count = 3 then .ofUnit (value * 16 + digit) :: inputsFrom .plain rest
        else inputsFrom (.digits (count + 1) (value * 16 + digit)) rest

def inputs (text : List Char) : List Input := inputsFrom .plain text

/-- An eligible `\u` stands in the text; `eligible` tells whether it follows an eligible
backslash. -/
def escapes (eligible : Bool) : List Char → Bool
  | [] => false
  | c :: rest => if eligible then c = 'u' || escapes false rest else escapes (c = '\\') rest

variable {r : Reading} {c : Char} {text rest : List Char} {eligible : Bool}

theorem inputs_cons (h : c ≠ '\\') (rest : List Char) :
    inputs (c :: rest) = .char c :: inputs rest := by
  rw [inputs, inputsFrom, if_neg h, inputs]

theorem inputs_append (h : '\\' ∉ text) (rest : List Char) :
    inputs (text ++ rest) = text.map .char ++ inputs rest := by
  induction text with
  | nil => rfl
  | cons c text ih =>
    rw [List.mem_cons, not_or] at h
    rw [List.cons_append, inputs_cons (Ne.symm h.1), ih h.2, List.map_cons, List.cons_append]

theorem inputsFrom_eq_nil : inputsFrom r text = [] ↔ r = .plain ∧ text = [] := by
  fun_induction inputsFrom r text <;> simp_all

theorem inputs_ne_nil (h : text ≠ []) : inputs text ≠ [] := fun hnil =>
  h (inputsFrom_eq_nil.mp hnil).2

theorem getLast?_inputs (h : .malformed ∈ inputs text) :
    (inputs text).getLast? = some .malformed := by
  have hfrom : ∀ r : Reading, .malformed ∈ inputsFrom r text →
      (inputsFrom r text).getLast? = some .malformed := by
    intro r
    clear h
    fun_induction inputsFrom r text <;> simp_all [List.getLast?_cons, Input.ne_ofUnit]
  exact hfrom .plain h

/-- A character that ends every escape before it and begins none. -/
structure Separates (c : Char) : Prop where
  backslash : c ≠ '\\'
  mark : c ≠ 'u'
  digit : Json.hexValue? c = none

theorem inputsFrom_append (hc : Separates c) (rest : List Char) :
    inputsFrom r (text ++ c :: rest) = inputsFrom r text ++
      if .malformed ∈ inputsFrom r text then [] else .char c :: inputs rest := by
  fun_induction inputsFrom r text with
  | case1 => simp [inputsFrom, inputs, hc.backslash]
  | case2 => simp [inputsFrom, inputs, hc.mark]
  | case3 => simp [inputsFrom, hc.mark, hc.digit]
  | case4 text ih => simpa [inputsFrom] using ih
  | case5 d text hd ih => simpa [inputsFrom, hd] using ih
  | case6 text ih => simpa [inputsFrom] using ih
  | case7 d text hd ih => simpa [inputsFrom, hd] using ih
  | case8 count value d text hmark ih => simpa [inputsFrom, hmark] using ih
  | case9 count value d text hmark hdigit => simp [inputsFrom, hmark, hdigit]
  | case10 value d text digit hdigit hmark ih =>
    simpa [inputsFrom, hmark, hdigit, Input.ne_ofUnit] using ih
  | case11 count value d text hmark digit hdigit hcount ih =>
    simpa [inputsFrom, hmark, hdigit, hcount] using ih

theorem separates_newline : Separates '\n' := ⟨by decide, by decide, by decide⟩

theorem inputs_line (text rest : List Char) : inputs (text ++ '\n' :: rest) = inputs text ++
    if .malformed ∈ inputs text then [] else .char '\n' :: inputs rest :=
  inputsFrom_append separates_newline rest

theorem inputs_of_escapes (h : escapes false text = false) : inputs text = text.map .char := by
  have hfrom : (escapes false text = false → inputsFrom .plain text = text.map .char) ∧
      (escapes true text = false → inputsFrom .backslash text = .char '\\' :: text.map .char) := by
    clear h
    induction text with
    | nil => exact ⟨fun _ => rfl, fun _ => rfl⟩
    | cons c rest ih =>
      constructor
      · intro h
        by_cases hc : c = '\\'
        · simpa [inputsFrom, hc] using ih.2 (by simpa [escapes, hc] using h)
        · simpa [inputsFrom, hc] using ih.1 (by simpa [escapes, hc] using h)
      · intro h
        have hboth : c ≠ 'u' ∧ escapes false rest = false := by simpa [escapes] using h
        simpa [inputsFrom, hboth.1] using ih.1 hboth.2
  exact hfrom.1 h

theorem escapes_of_append (h : escapes eligible (text ++ rest) = false) :
    escapes eligible text = false := by
  induction text generalizing eligible with
  | nil => rfl
  | cons c text ih =>
    cases eligible with
    | false => exact ih (by simpa [escapes] using h)
    | true =>
      have hboth : c ≠ 'u' ∧ escapes false (text ++ rest) = false := by simpa [escapes] using h
      simp [escapes, hboth.1, ih hboth.2]

theorem escapes_append_line :
    escapes eligible (text ++ '\n' :: rest) = (escapes eligible text || escapes false rest) := by
  induction text generalizing eligible with
  | nil => cases eligible <;> simp [escapes]
  | cons c text ih =>
    cases eligible with
    | false => simp [escapes, ih]
    | true => simp [escapes, ih, Bool.or_assoc]

end SchemaBeans.Java
