import SchemaBeans.Proofs.TypeGraph.Access

/-! # Names in a type graph

Where every type is nested in an earlier one, the way outwards ends, a qualified name is the name of
the surrounding type with the simple name behind it, and adding types or members changes no name. -/
namespace SchemaBeans.TypeGraph

/-- A nested type stands in an older one, and every type lists those that stand in it. -/
structure Nests (g : TypeGraph) : Prop where
  younger : ∀ id owner, g.Has id → (g.get id).enclosing = some owner → owner.index < id.index
  listed : ∀ owner, g.nested owner = g.ids.filter fun inner => (g.get inner).enclosing == some owner

theorem Nests.has_owner {g : TypeGraph} (hg : g.Nests) {id owner : TypeId} (hid : g.Has id)
    (ho : (g.get id).enclosing = some owner) : g.Has owner := by
  have := hg.younger id owner hid ho
  unfold Has at *
  omega

theorem Nests.mem_nested {g : TypeGraph} (hg : g.Nests) {owner inner : TypeId} :
    inner ∈ g.nested owner ↔ g.Has inner ∧ (g.get inner).enclosing = some owner := by
  rw [hg.listed owner, List.mem_filter, mem_ids, beq_iff_eq]

theorem ids_insert (g : TypeGraph) (decl : TypeDecl) :
    (g.insert decl).2.ids = g.ids ++ [⟨g.size⟩] := by
  simp [ids, List.range_succ]

theorem nested_insert {g : TypeGraph} {decl : TypeDecl} (hbare : decl.nested = [])
    (h : ∀ owner, decl.enclosing = some owner → g.Has owner) (owner : TypeId) :
    (g.insert decl).2.nested owner =
      g.nested owner ++ if decl.enclosing = some owner then [⟨g.size⟩] else [] := by
  by_cases hold : g.Has owner
  · exact nested_insert_of_has hold decl
  · have hnone : g.nested owner = [] := by
      rw [nested, get_of_not_has hold]
    rw [hnone, if_neg fun howner => hold (h owner howner), List.append_nil]
    by_cases hnew : owner = ⟨g.size⟩
    · rw [hnew, nested, get_insert_self, hbare]
    · rw [nested, get_of_not_has fun hin => (has_insert.mp hin).elim hold hnew]

/-- A new type goes into one that is there. -/
theorem Nests.insert {g : TypeGraph} (hg : g.Nests) {decl : TypeDecl} (hbare : decl.nested = [])
    (h : ∀ owner, decl.enclosing = some owner → g.Has owner) : (g.insert decl).2.Nests where
  younger id owner hid howner := by
    rcases has_insert.mp hid with hold | rfl
    · rw [get_insert_of_has hold] at howner
      exact hg.younger id owner hold howner
    · rw [get_insert_self] at howner
      exact h owner howner
  listed owner := by
    have hold : g.ids.filter (fun inner => ((g.insert decl).2.get inner).enclosing == some owner) =
        g.nested owner := by
      rw [hg.listed owner]
      exact List.filter_congr fun inner hinner => by rw [get_insert_of_has (mem_ids.mp hinner)]
    rw [nested_insert hbare h, ids_insert, List.filter_append, hold, List.filter_cons,
      get_insert_self]
    simp only [beq_iff_eq, List.filter_nil]

private theorem chain_fuel {link : TypeId → Option TypeId} {n : Nat}
    (hlink : ∀ id next, id.index < n → link id = some next → next.index < id.index) :
    ∀ (a b : Nat) (id : TypeId), id.index < n → id.index < a → id.index < b →
      chain link a id = chain link b id := by
  intro a
  induction a with
  | zero => intro b id _ ha; omega
  | succ a ih =>
    intro b id hn ha hb
    obtain ⟨b, rfl⟩ : ∃ c, b = c + 1 := ⟨b - 1, by omega⟩
    simp only [chain]
    cases hl : link id with
    | none => rfl
    | some next =>
      have hlt := hlink id next hn hl
      simp only [List.cons.injEq, true_and]
      exact ih b next (by omega) (by omega) (by omega)

theorem outwards_eq {g : TypeGraph} (hg : g.Nests) {id : TypeId} (hid : g.Has id) :
    g.outwards id = match (g.get id).enclosing with
      | some owner => id :: g.outwards owner
      | none => [id] := by
  rw [outwards, chain]
  cases ho : (g.get id).enclosing with
  | none => rfl
  | some owner =>
    have hlt := hg.younger id owner hid ho
    unfold Has at hid
    simp only [List.cons.injEq, true_and]
    exact chain_fuel hg.younger _ _ owner (by omega) (by omega)
      (by omega)

theorem outwards_ne_nil (g : TypeGraph) (id : TypeId) : g.outwards id ≠ [] := by
  rw [outwards, chain]
  split <;> simp

theorem binaryName_eq {g : TypeGraph} (hg : g.Nests) {id : TypeId} (hid : g.Has id) :
    g.binaryName id = match (g.get id).enclosing with
      | some owner => g.binaryName owner ++ "." ++ (g.get id).name
      | none => (g.get id).name := by
  unfold binaryName
  rw [outwards_eq hg hid]
  cases ho : (g.get id).enclosing with
  | none => simp [String.intercalate_singleton]
  | some owner =>
    simp only [List.reverse_cons, List.map_append, List.map_cons, List.map_nil]
    rw [String.intercalate_append_of_ne_nil (by simpa using outwards_ne_nil g owner) (by simp),
      String.intercalate_singleton]

theorem inPackage_append (package name rest : String) :
    inPackage package name ++ rest = inPackage package (name ++ rest) := by
  unfold inPackage
  split <;> simp [String.append_assoc]

theorem qualifiedName_nested {g : TypeGraph} (hg : g.Nests) {id owner : TypeId} (hid : g.Has id)
    (ho : (g.get id).enclosing = some owner) (hp : (g.get id).package = (g.get owner).package) :
    g.qualifiedName id = g.qualifiedName owner ++ "." ++ (g.get id).name := by
  have hname : g.binaryName id = g.binaryName owner ++ "." ++ (g.get id).name := by
    rw [binaryName_eq hg hid, ho]
  rw [qualifiedName, hname, hp, qualifiedName, inPackage_append, inPackage_append]

theorem qualifiedName_topLevel {g : TypeGraph} (hg : g.Nests) {id : TypeId} (hid : g.Has id)
    (ho : (g.get id).enclosing = none) :
    g.qualifiedName id = inPackage (g.get id).package (g.get id).name := by
  rw [qualifiedName, binaryName_eq hg hid, ho]

/-- A type keeps its name within the package. -/
theorem Keeps.binaryName {g h : TypeGraph} (hk : Keeps g h) (hg : g.Nests) (hh : h.Nests) :
    ∀ (n : Nat) (id : TypeId), id.index < n → g.Has id → h.binaryName id = g.binaryName id := by
  intro n
  induction n with
  | zero => intro id hlt; omega
  | succ n ih =>
    intro id hlt hid
    rw [binaryName_eq hg hid, binaryName_eq hh (hk.has hid), hk.enclosing hid, hk.name hid]
    cases ho : (g.get id).enclosing with
    | none => rfl
    | some owner =>
      have := hg.younger id owner hid ho
      simp only
      rw [ih owner (by omega) (hg.has_owner hid ho)]

theorem Keeps.qualifiedName {g h : TypeGraph} (hk : Keeps g h) (hg : g.Nests) (hh : h.Nests)
    {id : TypeId} (hid : g.Has id) : h.qualifiedName id = g.qualifiedName id := by
  unfold TypeGraph.qualifiedName
  rw [hk.package hid, hk.binaryName hg hh _ id (Nat.lt_succ_self _) hid]

theorem Keeps.nests {g h : TypeGraph} (hk : Keeps g h) (hsize : h.size = g.size) (hg : g.Nests) :
    h.Nests where
  younger id owner hid ho := by
    have hid := (has_of_size hsize).mp hid
    rw [hk.enclosing hid] at ho
    exact hg.younger id owner hid ho
  listed owner := by
    rw [hk.nested hsize owner, hg.listed owner, ids_of_size hsize]
    exact List.filter_congr fun inner hinner => by rw [hk.enclosing (mem_ids.mp hinner)]

/-- Without a new type, all types keep their names, wherever they stand. -/
theorem Keeps.names {g h : TypeGraph} (hk : Keeps g h) (hsize : h.size = g.size) :
    h.binaryName = g.binaryName ∧ h.qualifiedName = g.qualifiedName := by
  have henclosing : (fun id => (h.get id).enclosing) = fun id => (g.get id).enclosing :=
    funext fun id => hk.part_eq hsize id fun _ => rfl
  have hname : (fun id => (h.get id).name) = fun id => (g.get id).name :=
    funext fun id => hk.part_eq hsize id fun _ => rfl
  have hbinary : h.binaryName = g.binaryName := by
    funext id
    rw [TypeGraph.binaryName, TypeGraph.outwards, hsize, henclosing, hname]
    rfl
  refine ⟨hbinary, funext fun id => ?_⟩
  have hpackage : (h.get id).package = (g.get id).package := hk.part_eq hsize id fun _ => rfl
  rw [TypeGraph.qualifiedName, hpackage, hbinary]
  rfl

theorem Keeps.find? {g h : TypeGraph} (hk : Keeps g h) (hsize : h.size = g.size) (name : String) :
    h.find? name = g.find? name := by
  obtain ⟨hbinary, hqualified⟩ := hk.names hsize
  unfold TypeGraph.find?
  rw [ids_of_size hsize, hbinary, hqualified]

theorem find?_has {g : TypeGraph} {name : String} {id : TypeId} (h : g.find? name = some id) :
    g.Has id := by
  unfold find? at h
  split at h
  · rename_i found hfound
    cases h
    exact mem_ids.mp (List.mem_of_find?_eq_some hfound)
  · split at h
    · rename_i only honly
      cases h
      have hmem : id ∈ g.ids.filter fun id => g.binaryName id == name := by simp [honly]
      exact mem_ids.mp (List.mem_filter.mp hmem).1
    · cases h

theorem find?_qualifiedName {g : TypeGraph} {id : TypeId} (hid : g.Has id)
    (hunique : ∀ other, g.Has other → g.qualifiedName other = g.qualifiedName id → other = id) :
    g.find? (g.qualifiedName id) = some id := by
  unfold find?
  cases h : g.ids.find? fun other => g.qualifiedName other == g.qualifiedName id with
  | none => simpa using List.find?_eq_none.mp h id (mem_ids.mpr hid)
  | some other =>
    have hname : g.qualifiedName other = g.qualifiedName id := by simpa using List.find?_some h
    have hmem := mem_ids.mp (List.mem_of_find?_eq_some h)
    simp [hunique other hmem hname]

end SchemaBeans.TypeGraph
