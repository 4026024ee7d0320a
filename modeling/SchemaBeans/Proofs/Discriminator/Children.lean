import SchemaBeans.Discriminator.Declaration
import SchemaBeans.Proofs.Json.Strings
import SchemaBeans.Proofs.Outcome

/-! # Children in a discriminator

A discriminator names its children in a list, in a mapping or in both. The references among them are
strings in it. -/
namespace SchemaBeans.Discriminator

variable {default : Identification} {discriminator : Discriminator} {metadata : Json}
  {members : Json.Members} {text : String} {tag : Option String}

theorem optionalString_holds {key value : String}
    (h : optionalString members key = .ok (some value)) : (Json.object members).Holds value := by
  unfold optionalString at h
  split at h
  · cases h
  · rename_i hlookup
    cases h
    exact .member (Json.mem_of_lookup hlookup) .string
  · cases h

theorem child_holds {v : Json} (h : child v = .ok ⟨.reference text, tag⟩) : v.Holds text := by
  cases v with
  | object members =>
    obtain ⟨value, -, h⟩ := ok_of_bind h
    obtain ⟨reference, hreference, h⟩ := ok_of_bind h
    obtain ⟨className, -, h⟩ := ok_of_bind h
    split at h
    · cases h
      exact optionalString_holds hreference
    · cases h
    · cases h
  | _ => cases h

theorem mapped_holds {entry : String × Json} (h : mapped entry = .ok ⟨.reference text, tag⟩) :
    entry.2.Holds text := by
  unfold mapped at h
  split at h
  · cases h
    exact .string
  · cases h

theorem exists_of_mem_mapM {α β ε : Type} {f : α → Except ε β} :
    ∀ {xs : List α} {ys : List β}, xs.mapM f = .ok ys → ∀ y ∈ ys, ∃ x ∈ xs, f x = .ok y
  | [], ys, h, y, hy => by
    cases h
    cases hy
  | x :: xs, ys, h, y, hy => by
    rw [List.mapM_cons] at h
    obtain ⟨first, hfirst, h⟩ := ok_of_bind h
    obtain ⟨rest, hrest, h⟩ := ok_of_bind h
    cases h
    rcases List.mem_cons.mp hy with rfl | hy
    · exact ⟨x, List.mem_cons_self, hfirst⟩
    · obtain ⟨other, hother, hread⟩ := exists_of_mem_mapM hrest y hy
      exact ⟨other, List.mem_cons_of_mem x hother, hread⟩

theorem listed_holds {children : List ChildDeclaration} (h : listed members = .ok children)
    (hchild : ⟨.reference text, tag⟩ ∈ children) : (Json.object members).Holds text := by
  unfold listed at h
  split at h
  · cases h
    cases hchild
  · rename_i entries hlookup
    obtain ⟨entry, hentry, hread⟩ := exists_of_mem_mapM h _ hchild
    exact .member (Json.mem_of_lookup hlookup) (.item hentry (child_holds hread))
  · cases h

theorem mapping_holds {children : List ChildDeclaration} (h : mapping members = .ok children)
    (hchild : ⟨.reference text, tag⟩ ∈ children) : (Json.object members).Holds text := by
  unfold mapping at h
  split at h
  · cases h
    cases hchild
  · rename_i entries hlookup
    obtain ⟨entry, hentry, hread⟩ := exists_of_mem_mapM h _ hchild
    exact .member (Json.mem_of_lookup hlookup) (.member hentry (mapped_holds hread))
  · cases h

theorem ofMembers_children (h : ofMembers default members = .ok discriminator) :
    ∃ first second, listed members = .ok first ∧ mapping members = .ok second ∧
      discriminator.children = first ++ second := by
  obtain ⟨property, -, h⟩ := ok_of_bind h
  obtain ⟨mode, -, h⟩ := ok_of_bind h
  obtain ⟨inclusion, -, h⟩ := ok_of_bind h
  obtain ⟨use, -, h⟩ := ok_of_bind h
  obtain ⟨identification, -, h⟩ := ok_of_bind h
  -- The children are read last, however the property is named.
  have hlast : ∀ name : String, (do
      let listed ← listed members
      let mapped ← mapping members
      pure (⟨inclusion, identification, name, listed ++ mapped⟩ : Discriminator)) =
        Except.ok discriminator → ∃ first second, listed members = .ok first ∧
          mapping members = .ok second ∧ discriminator.children = first ++ second := by
    intro name h
    obtain ⟨first, hfirst, h⟩ := ok_of_bind h
    obtain ⟨second, hsecond, h⟩ := ok_of_bind h
    cases h
    exact ⟨first, second, hfirst, hsecond, rfl⟩
  split at h
  · exact hlast _ h
  · cases h
  · exact hlast _ h

/-- A reference to a child stands in the discriminator. -/
theorem reference_holds (h : ofJson default metadata = .ok discriminator)
    (hchild : ⟨.reference text, tag⟩ ∈ discriminator.children) : metadata.Holds text := by
  unfold ofJson at h
  split at h
  · cases h
    cases hchild
  · obtain ⟨first, second, hfirst, hsecond, hchildren⟩ := ofMembers_children h
    rw [hchildren] at hchild
    rcases List.mem_append.mp hchild with hchild | hchild
    · exact listed_holds hfirst hchild
    · exact mapping_holds hsecond hchild
  · cases h

end SchemaBeans.Discriminator
