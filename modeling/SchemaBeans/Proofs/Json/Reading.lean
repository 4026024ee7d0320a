import SchemaBeans.Json.Reader
import SchemaBeans.Proofs.Json.Strings

/-! # Strings read from a text

A string takes at least as many characters of a text as it has itself, so no string of a document is
longer than the text of the document. -/
namespace SchemaBeans.Json

variable {n fuel depth : Nat} {cs rest : List Char} {v : Json}

/-- If the reading succeeds, it leaves no more text than there was, and its strings are short. -/
def Consumes (n : Nat) (cs : List Char) (r : Reading Json) : Prop :=
  ∀ v rest, r = .ok (v, rest) → rest.length ≤ cs.length ∧ ∀ s, Holds s v → s.length ≤ n

theorem Consumes.error {fault : SyntaxFault} : Consumes n cs (.error fault) :=
  fun _ _ h => by cases h

theorem Consumes.less {less : List Char} {r : Reading Json} (hle : less.length ≤ cs.length)
    (h : Consumes n less r) : Consumes n cs r :=
  fun v rest hr => ⟨Nat.le_trans (h v rest hr).1 hle, (h v rest hr).2⟩

theorem skipBlanks_length (cs : List Char) : (skipBlanks cs).length ≤ cs.length :=
  (List.dropWhile_sublist _).length_le

theorem readString_length {done : List Char} {s : String}
    (h : readString done cs = .ok (s, rest)) :
    s.length + rest.length ≤ done.length + cs.length := by
  fun_induction readString done cs with
  | case2 done rest' =>
    cases h
    simp
  | _ => simp_all; try omega

theorem readWord_consumes (value : Json) (hvalue : ∀ s, ¬ Holds s value) (word : List Char) :
    ∀ cs, Consumes n cs (readWord value word cs) := by
  induction word with
  | nil =>
    intro cs v rest h
    cases h
    exact ⟨Nat.le_refl _, fun s hs => absurd hs (hvalue s)⟩
  | cons first word ih =>
    intro cs
    cases cs with
    | nil => exact Consumes.error
    | cons c cs =>
      rw [readWord]
      split
      · exact (ih cs).less (by simp)
      · exact Consumes.error

theorem digitsOf_length {digits : List Char} (h : digitsOf cs = (digits, rest)) :
    rest.length ≤ cs.length := by
  cases h
  exact (List.dropWhile_sublist _).length_le

theorem readFraction_length {fraction : Option (List Char)}
    (h : readFraction cs = .ok (fraction, rest)) : rest.length ≤ cs.length := by
  unfold readFraction at h
  split at h
  · split at h
    · cases h
    · cases h
    · rename_i hdigits
      cases h
      exact Nat.le_succ_of_le (digitsOf_length hdigits)
  · cases h
    exact Nat.le_refl _

theorem signed_length (cs : List Char) : (Binary64.signed cs).2.length ≤ cs.length := by
  unfold Binary64.signed
  split <;> simp

theorem readExponent_length {exponent : Option Int}
    (h : readExponent cs = .ok (exponent, rest)) : rest.length ≤ cs.length := by
  unfold readExponent at h
  split at h
  · rename_i c tail
    split at h
    · have hsigned := signed_length tail
      dsimp only at h
      split at h
      · cases h
      · cases h
      · rename_i hdigits
        cases h
        exact Nat.le_succ_of_le (Nat.le_trans (digitsOf_length hdigits) hsigned)
    · cases h
      exact Nat.le_refl _
  · cases h
    exact Nat.le_refl _

theorem readNumber_consumes (negative : Bool) (cs : List Char) :
    Consumes n cs (readNumber negative cs) := by
  intro v rest h
  unfold readNumber at h
  split at h
  · cases h
  · cases h
  · cases h
  · rename_i hdigits
    obtain ⟨⟨fraction, afterFraction⟩, hfraction, h⟩ := ok_of_bind h
    obtain ⟨⟨exponent, afterExponent⟩, hexponent, h⟩ := ok_of_bind h
    dsimp only at h
    split at h
    · cases h
      have hwhole := digitsOf_length hdigits
      have hbehind := readFraction_length hfraction
      have hafter := readExponent_length hexponent
      exact ⟨by omega, fun s hs => by cases hs⟩
    · cases h

/-- What is read with some fuel, the parts read before it included. -/
structure Reads (n fuel : Nat) : Prop where
  value : ∀ depth cs, cs.length ≤ n → Consumes n cs (readValue fuel depth cs)
  items : ∀ depth done cs, cs.length ≤ n → (∀ v ∈ done, ∀ s, Holds s v → s.length ≤ n) →
    Consumes n cs (readItems fuel depth done cs)
  members : ∀ depth (done : Members) cs, cs.length ≤ n →
    (∀ m ∈ done, ∀ s, Holds s m.2 → s.length ≤ n) → Consumes n cs (readMembers fuel depth done cs)

theorem readValue_consumes (ih : Reads n fuel) (hcs : cs.length ≤ n) :
    Consumes n cs (readValue (fuel + 1) depth cs) := by
  have hskip := skipBlanks_length cs
  have hword : ∀ {value : Json} {word tail : List Char} {c : Char}, (∀ s, ¬ Holds s value) →
      (c :: tail).length ≤ cs.length → Consumes n cs (readWord value word tail) :=
    fun hvalue hle => (readWord_consumes _ hvalue _ _).less (Nat.le_of_succ_le hle)
  unfold readValue
  split <;> rename_i hnext <;> rw [hnext] at hskip
  · exact .error
  · exact hword (fun s h => by cases h) hskip
  · exact hword (fun s h => by cases h) hskip
  · exact hword (fun s h => by cases h) hskip
  · intro v rest h
    rename_i tail
    cases hstring : readString [] tail with
    | error fault => simp [hstring, Except.map] at h
    | ok found =>
      simp only [hstring, Except.map, Except.ok.injEq, Prod.mk.injEq] at h
      obtain ⟨rfl, rfl⟩ := h
      have hlength := readString_length hstring
      simp only [List.length_nil, List.length_cons] at hlength hskip
      refine ⟨by omega, fun s hs => ?_⟩
      cases hs
      omega
  · exact (readNumber_consumes _ _).less (Nat.le_of_succ_le hskip)
  · split
    · exact .error
    · exact (ih.items _ _ _ (Nat.le_trans (Nat.le_of_succ_le hskip) hcs) (by simp)).less
        (Nat.le_of_succ_le hskip)
  · split
    · exact .error
    · exact (ih.members _ _ _ (Nat.le_trans (Nat.le_of_succ_le hskip) hcs) (by simp)).less
        (Nat.le_of_succ_le hskip)
  · split
    · exact (readNumber_consumes _ _).less hskip
    · exact .error

theorem readItem_consumes (ih : Reads n fuel) (hcs : cs.length ≤ n) {done : List Json}
    (hdone : ∀ v ∈ done, ∀ s, Holds s v → s.length ≤ n) (next : List Char) :
    next.length ≤ cs.length → Consumes n cs
      (match readValue fuel depth next with
      | .error fault => .error fault
      | .ok (v, rest) => readItems fuel depth (v :: done) rest) := by
  intro hnext
  split
  · exact .error
  · rename_i v rest hv
    obtain ⟨hrest, hshort⟩ := ih.value _ _ (Nat.le_trans hnext hcs) v rest hv
    have hle := Nat.le_trans hrest hnext
    refine (ih.items _ _ _ (Nat.le_trans hle hcs) ?_).less hle
    exact List.forall_mem_cons.mpr ⟨hshort, hdone⟩

theorem readItems_consumes (ih : Reads n fuel) (hcs : cs.length ≤ n) {done : List Json}
    (hdone : ∀ v ∈ done, ∀ s, Holds s v → s.length ≤ n) :
    Consumes n cs (readItems (fuel + 1) depth done cs) := by
  have hskip := skipBlanks_length cs
  unfold readItems
  dsimp only
  split
  · exact .error
  · rename_i hnext
    rw [hnext] at hskip
    intro v rest h
    cases h
    refine ⟨Nat.le_of_succ_le hskip, fun s hs => ?_⟩
    obtain ⟨v, hv, hs⟩ := holds_array.mp hs
    exact hdone v (List.mem_reverse.mp hv) s hs
  · rename_i hnext
    rw [hnext] at hskip
    split
    · exact readItem_consumes ih hcs hdone _ hskip
    · have hagain := Nat.le_trans (skipBlanks_length _) (Nat.le_of_succ_le hskip)
      split
      · exact .error
      · exact .error
      · exact readItem_consumes ih hcs hdone _ hagain
  · split
    · exact readItem_consumes ih hcs hdone _ hskip
    · exact .error

/-- A member, and then the members behind it. -/
theorem readMember_consumes (ih : Reads n fuel) (hcs : cs.length ≤ n) {done : Members}
    (hdone : ∀ m ∈ done, ∀ s, Holds s m.2 → s.length ≤ n) (next : List Char) :
    next.length ≤ cs.length → Consumes n cs
      (match next with
      | [] => .error .endInValue
      | '\x7d' :: _ => .error .trailingComma
      | '"' :: rest =>
        match readString [] rest with
        | .error fault => .error fault
        | .ok (name, rest) =>
          match skipBlanks rest with
          | [] => .error .endInObject
          | ':' :: rest =>
            match readValue fuel depth rest with
            | .error fault => .error fault
            | .ok (v, rest) => readMembers fuel depth ((name, v) :: done) rest
          | _ => .error .expectedColon
      | _ => .error .keyNotString) := by
  intro hnext
  split
  · exact .error
  · exact .error
  · split
    · exact .error
    · rename_i tail _ name afterName hname
      have hlength := readString_length hname
      have hskip := skipBlanks_length afterName
      simp only [List.length_nil, List.length_cons] at hlength hnext
      split
      · exact .error
      · rename_i afterColon hcolon
        rw [hcolon, List.length_cons] at hskip
        split
        · exact .error
        · rename_i v rest hv
          obtain ⟨hrest, hshort⟩ := ih.value _ _ (by omega) v rest hv
          refine (ih.members _ _ _ (by omega) ?_).less (by omega)
          exact List.forall_mem_cons.mpr ⟨hshort, hdone⟩
      · exact .error
  · exact .error

theorem readMembers_consumes (ih : Reads n fuel) (hcs : cs.length ≤ n) {done : Members}
    (hdone : ∀ m ∈ done, ∀ s, Holds s m.2 → s.length ≤ n) :
    Consumes n cs (readMembers (fuel + 1) depth done cs) := by
  have hskip := skipBlanks_length cs
  unfold readMembers
  dsimp only
  split
  · exact .error
  · rename_i hnext
    rw [hnext] at hskip
    intro v rest h
    cases h
    refine ⟨Nat.le_of_succ_le hskip, fun s hs => ?_⟩
    obtain ⟨m, hm, hs⟩ := holds_object.mp hs
    exact hdone m (List.mem_reverse.mp hm) s hs
  · rename_i hnext
    rw [hnext] at hskip
    split
    · exact .error
    · exact readMember_consumes ih hcs hdone _
        (Nat.le_trans (skipBlanks_length _) (Nat.le_of_succ_le hskip))
  · split
    · exact readMember_consumes ih hcs hdone _ hskip
    · exact .error

theorem reads (n : Nat) : ∀ fuel, Reads n fuel := by
  intro fuel
  induction fuel with
  | zero =>
    refine ⟨fun _ _ _ => ?_, fun _ _ _ _ _ => ?_, fun _ _ _ _ _ => ?_⟩
    · unfold readValue
      exact .error
    · unfold readItems
      exact .error
    · unfold readMembers
      exact .error
  | succ fuel ih =>
    exact ⟨fun _ _ hcs => readValue_consumes ih hcs,
      fun _ _ _ hcs hdone => readItems_consumes ih hcs hdone,
      fun _ _ _ hcs hdone => readMembers_consumes ih hcs hdone⟩

/-- No string of a document is longer than its text. -/
theorem ofText?_length {text s : String} (h : ofText? text = .ok v) (hs : Holds s v) :
    s.length ≤ text.length := by
  unfold ofText? at h
  cases hraw : ofTextRaw? text with
  | error fault => simp [hraw, Except.map] at h
  | ok raw =>
    simp only [hraw, Except.map, Except.ok.injEq] at h
    rw [← h] at hs
    obtain ⟨⟨v, rest⟩, hread, hend⟩ := ok_of_bind hraw
    dsimp only at hend
    split at hend
    · cases hend
      have hlength := Nat.le_of_eq (String.length_toList (s := text))
      exact ((reads text.length _).value _ text.toList hlength _ rest hread).2 s hs.of_unify
    · cases hend

end SchemaBeans.Json
