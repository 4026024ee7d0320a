import SchemaBeans.Proofs.Java.Imports

/-! # What a file imports

Every piece of a declaration writes the types listed for it, so a file imports what these types
need. The rest of its imports are classes that the written code uses. -/
namespace SchemaBeans.Java

variable {sheet : Sheet} {most : Set String}

/-- The imports that the types need are among the given ones. -/
def Sheet.Needs (sheet : Sheet) (most : Set String) (types : List Referent) : Prop :=
  ∀ type ∈ types, ∀ full, sheet.imported? type = some full → full ∈ most

theorem Sheet.Needs.of_subset {types fewer : List Referent} (h : sheet.Needs most types)
    (hsub : fewer ⊆ types) : sheet.Needs most fewer := fun type htype => h type (hsub htype)

theorem Sheet.Needs.of_flatMap {α : Type} {f : α → List Referent} {xs : List α}
    (h : sheet.Needs most (xs.flatMap f)) {x : α} (hx : x ∈ xs) : sheet.Needs most (f x) :=
  h.of_subset fun _ htype => List.mem_flatMap.mpr ⟨x, hx, htype⟩

theorem Sheet.Needs.left {types more : List Referent} (h : sheet.Needs most (types ++ more)) :
    sheet.Needs most types := h.of_subset (List.subset_append_left _ _)

theorem Sheet.Needs.right {types more : List Referent} (h : sheet.Needs most (types ++ more)) :
    sheet.Needs most more := h.of_subset (List.subset_append_right _ _)

theorem write_writes {type : Referent} (h : sheet.Needs most [type]) :
    Writes sheet most (write sheet type) [type] := by
  have hafter : ∀ before full, full ∈ ((write sheet type).run before).2 ↔
      sheet.imported? type = some full ∨ full ∈ before := by
    intro before full
    simp [write_run]
  constructor
  · exact fun before full hfull => (hafter before full).mpr (.inr hfull)
  · intro before other hother full hfull
    rw [List.mem_singleton.mp hother] at hfull
    exact (hafter before full).mpr (.inl hfull)
  · intro before full hfull
    refine ((hafter before full).mp hfull).symm.imp_right fun himported => ?_
    exact h type List.mem_cons_self full himported

section Pieces

variable (hhelp : ∀ full ∈ helperClasses sheet.settings.useJakartaValidation, full ∈ most)

include hhelp

theorem typeName_writes (boxed : Bool) (type : TypeRef) (h : sheet.Needs most type.named) :
    Writes sheet most (typeName sheet boxed type) type.named := by
  induction type generalizing boxed with
  | any => exact .pure _
  | string => exact .pure _
  | scalar => exact .pure _
  | library name =>
    by_cases hname : name.toList.contains '<' = true
    · have hpure : typeName sheet boxed (.library name) = pure name := by
        simp only [typeName, libraryName, hname, if_true]
      simp only [hpure, TypeRef.named, hname, if_true]
      exact .pure _
    · simp only [TypeRef.named, hname, Bool.false_eq_true, if_false] at h ⊢
      exact write_writes h
  | generated id => exact write_writes h
  | list element ih =>
    exact (collection_writes hhelp "List" (by decide)).after fun _ =>
      (ih true h).before fun _ => .pure _
  | set element ih =>
    exact (collection_writes hhelp "Set" (by decide)).after fun _ =>
      (ih true h).before fun _ => .pure _

omit hhelp in
theorem collection?_named {type element : TypeRef} {implementation : String}
    (h : collection? type = some (implementation, element)) :
    implementation ∈ collectionNames ∧ element.named = type.named := by
  cases type with
  | list => cases h; exact ⟨by decide, rfl⟩
  | set => cases h; exact ⟨by decide, rfl⟩
  | _ => cases h

theorem emptyInitializer_writes {type : TypeRef} (h : sheet.Needs most type.named) :
    Writes sheet most (emptyInitializer sheet type) [] := by
  unfold emptyInitializer
  split
  · rename_i implementation element _ hcollection
    obtain ⟨hname, hnamed⟩ := collection?_named hcollection
    refine (collection_writes hhelp _ hname).after fun _ => ?_
    exact (typeName_writes hhelp true element (hnamed ▸ h)).none.after fun _ => .pure _
  · exact .pure _

theorem literal?_writes {type : TypeRef} (h : sheet.Needs most type.named) (value : Json) :
    Writes sheet most (literal? sheet type value) [] := by
  have htype : ∀ boxed, Writes sheet most (typeName sheet boxed type) [] :=
    fun boxed => (typeName_writes hhelp boxed type h).none
  have hlibrary : ∀ name text, type = .library name →
      Writes sheet most (literal?.ofLibrary sheet name text) [] := by
    rintro name text rfl
    unfold literal?.ofLibrary
    split
    · exact (htype false).after fun _ => .pure _
    · exact .pure _
  unfold literal?
  split
  · exact .pure _
  · exact .pure _
  · exact .pure _
  · exact .pure _
  · exact hlibrary _ _ rfl
  · exact hlibrary _ _ rfl
  · dsimp only
    split
    · split
      · exact (htype false).after fun _ => .pure _
      · exact .pure _
    · split
      · exact (htype false).after fun _ => .pure _
      · exact .pure _
    · exact .pure _
  · exact .pure _

theorem defaultInitializer?_writes {type : TypeRef} (h : sheet.Needs most type.named)
    (value : Json) : Writes sheet most (defaultInitializer? sheet type value) [] := by
  unfold defaultInitializer?
  split
  · split <;> exact .pure _
  · split
    · exact (literal?_writes hhelp h value).after fun _ => .pure _
    · rename_i implementation element hcollection
      obtain ⟨hname, hnamed⟩ := collection?_named hcollection
      split
      · exact .pure _
      · rename_i items _
        have hitems : Writes sheet most (items.mapM (literal? sheet element)) [] :=
          (Writes.mapM fun item _ => literal?_writes hhelp (hnamed ▸ h) item).none
        refine hitems.after fun literals => ?_
        dsimp only
        split
        · exact .pure _
        · refine (collection_writes hhelp _ hname).after fun _ => ?_
          refine (collection_writes hhelp "Arrays" (by decide)).after fun _ => ?_
          exact (typeName_writes hhelp true element (hnamed ▸ h)).none.after fun _ => .pure _

theorem initializer_writes {type : TypeRef} (h : sheet.Needs most type.named)
    (default : Option Json) : Writes sheet most (initializer sheet type default) [] := by
  have hempty := emptyInitializer_writes hhelp h
  unfold initializer
  cases default with
  | none => exact hempty
  | some value =>
    refine (defaultInitializer?_writes hhelp h value).after fun stated => ?_
    cases stated with
    | none => exact hempty
    | some text => exact .pure _

theorem annotationText_writes (directive : Directive) (h : sheet.Needs most directive.named) :
    Writes sheet most (annotationText sheet directive) directive.named := by
  have hjackson : ∀ (name : String) (f : String → Option String), name ∈ jacksonNames →
      Writes sheet most (do let mark ← jackson name; pure (f mark)) [] :=
    fun name f hname => (jackson_writes hhelp _ hname).after fun _ => .pure _
  have hvalidation : ∀ (name : String) (f : String → Option String), name ∈ validationNames →
      Writes sheet most (do let mark ← validation sheet name; pure (f mark)) [] :=
    fun name f hname => (validation_writes hhelp _ hname).after fun _ => .pure _
  have hgson : ∀ name, ("com.google.gson.annotations", name) ∈
      helperParts sheet.settings.useJakartaValidation → ∀ text : Option String,
      Writes sheet most (do need ("com.google.gson.annotations." ++ name); pure text) [] :=
    fun name hname _ => (need_writes hhelp _ _ hname).after fun _ => .pure _
  cases directive with
  | wireName style name =>
    cases style with
    | jackson2 => exact hjackson _ _ (by decide)
    | gson => exact hgson "SerializedName" (by simp [helperParts]) _
    | moshi =>
      exact (need_writes hhelp "com.squareup.moshi" "Json" (by simp [helperParts])).after
        fun _ => .pure _
    | none => exact .pure _
  | expose => exact hgson "Expose" (by simp [helperParts]) _
  | propertyOrder | includeNonNull | typeInfo | typeName => exact hjackson _ _ (by decide)
  | subTypes children =>
    have hnamed : (Directive.subTypes children).named =
        children.flatMap fun child => [.generated child.1] := by
      rw [Directive.named, List.map_eq_flatMap]
    rw [hnamed]
    refine (jackson_writes hhelp "JsonSubTypes" (by decide)).after fun _ =>
      Writes.before (Writes.mapM fun child hchild => ?_) fun _ => .pure _
    have hneeds : sheet.Needs most [.generated child.1] :=
      h.of_subset (by simpa [Directive.named] using ⟨child.2, hchild⟩)
    refine (write_writes hneeds).before fun _ => ?_
    split <;> exact .pure _
  | decimalMin | decimalMax | size | pattern | notNull | valid => exact hvalidation _ _ (by decide)
  | anyProperties | enumValue | doc | requiredDoc => exact .pure _

theorem annotations_writes (indent : Nat) (directives : List Directive)
    (h : sheet.Needs most (directives.flatMap Directive.named)) :
    Writes sheet most (annotations sheet indent directives)
      (directives.flatMap Directive.named) :=
  (Writes.mapM fun directive hdirective =>
    annotationText_writes hhelp directive (h.of_flatMap hdirective)).before fun _ => .pure _

theorem heading_writes (indent : Nat) (target : Target)
    (h : sheet.Needs most (sheet.namedOn target)) :
    Writes sheet most (heading sheet indent target) (sheet.namedOn target) :=
  (annotations_writes hhelp indent _ h).before fun _ => .pure _

theorem fieldLines_writes (indent : Nat) (id : TypeId) (property : Property × Nat)
    (h : sheet.Needs most (sheet.namedOn (.property id property.2) ++ property.1.type.named)) :
    Writes sheet most (fieldLines sheet indent id property)
      (sheet.namedOn (.property id property.2) ++ property.1.type.named) :=
  (heading_writes hhelp indent _ h.left).bind fun _ =>
    (typeName_writes hhelp false _ h.right).before fun _ =>
      (initializer_writes hhelp h.right _).after fun _ => .pure _

theorem accessors_writes (indent : Nat) (owner : String) (property : Property)
    (h : sheet.Needs most property.type.named) :
    Writes sheet most (accessors sheet indent owner property) [] :=
  (typeName_writes hhelp false _ h).none.after fun _ => .pure _

theorem extension?_writes (id : TypeId)
    (h : sheet.Needs most
      ((sheet.graph.get id).additionalProperties.toList.flatMap TypeRef.named)) :
    Writes sheet most (extension? sheet id)
      ((sheet.graph.get id).additionalProperties.toList.flatMap TypeRef.named) := by
  unfold extension?
  split
  · rename_i hnone
    rw [hnone]
    exact .pure _
  · rename_i type hsome
    have hnamed : (sheet.graph.get id).additionalProperties.toList.flatMap TypeRef.named =
        type.named := by rw [hsome]; exact List.append_nil _
    rw [hnamed] at h ⊢
    refine (collection_writes hhelp "Map" (by decide)).after fun _ => ?_
    refine (collection_writes hhelp "LinkedHashMap" (by decide)).after fun _ => ?_
    exact (typeName_writes hhelp true type h).before fun _ => .pure _

theorem mark_writes (e : Extension) (name : String) (hname : name ∈ jacksonNames) :
    Writes sheet most (e.mark name) [] := by
  unfold Extension.mark
  split
  · exact (jackson_writes hhelp name hname).after fun _ => .pure _
  · exact .pure _

theorem extensionField_writes (e : Extension) (indent : Nat) :
    Writes sheet most (e.field indent) [] :=
  (mark_writes hhelp e "JsonIgnore" (by decide)).after fun _ => .pure _

theorem extensionAccessors_writes (e : Extension) (indent : Nat) (owner : String) :
    Writes sheet most (e.accessors sheet indent owner) [] :=
  (mark_writes hhelp e "JsonAnyGetter" (by decide)).after fun _ =>
    (mark_writes hhelp e "JsonAnySetter" (by decide)).after fun _ => .pure _

theorem derivedMembers_writes (indent : Nat) (decl : TypeDecl) :
    Writes sheet most (derivedMembers sheet indent decl) [] := by
  unfold derivedMembers
  dsimp only
  split
  · exact (collection_writes hhelp "Objects" (by decide)).after fun _ => .pure _
  · exact .pure _

theorem supertypes_writes (decl : TypeDecl)
    (h : sheet.Needs most (decl.supertype.toList.flatMap TypeRef.named ++
      decl.interfaces.map .generated)) :
    Writes sheet most (supertypes sheet decl)
      (decl.supertype.toList.flatMap TypeRef.named ++ decl.interfaces.map .generated) := by
  have hinterfaces : Writes sheet most (decl.interfaces.mapM (generatedName sheet))
      (decl.interfaces.map .generated) := by
    rw [List.map_eq_flatMap]
    refine Writes.mapM fun parent hparent => ?_
    have hneeds : sheet.Needs most [.generated parent] :=
      h.right.of_subset (by simpa using hparent)
    exact write_writes hneeds
  have hrest : ∀ extended : String, Writes sheet most
      (if decl.interfaces.isEmpty then pure extended
        else do
          let names ← decl.interfaces.mapM (generatedName sheet)
          pure (extended ++ " implements " ++ ", ".intercalate names))
      (decl.interfaces.map .generated) := by
    intro extended
    split
    · rename_i hnone
      rw [List.isEmpty_iff.mp hnone]
      exact .pure _
    · exact hinterfaces.before fun _ => .pure _
  unfold supertypes
  cases hsuper : decl.supertype with
  | none => exact hrest ""
  | some supertype =>
    have hnamed : (some supertype).toList.flatMap TypeRef.named = supertype.named :=
      List.append_nil _
    rw [hsuper, hnamed] at h
    rw [hnamed]
    exact (typeName_writes hhelp false supertype h.left).bind fun _ => hrest _

theorem classLines_writes (indent : Nat) {id : TypeId} (hkind : (sheet.graph.get id).kind = .bean)
    (h : sheet.Needs most (sheet.headNames id ++ sheet.bodyNames id)) :
    Writes sheet most (classLines sheet indent id) (sheet.headNames id ++ sheet.bodyNames id) := by
  simp only [Sheet.headNames, Sheet.bodyNames, hkind, if_true] at h ⊢
  have hproperties := h.right.left
  have htype : ∀ property ∈ (sheet.graph.get id).properties,
    sheet.Needs most property.type.named := by
    intro property hproperty
    obtain ⟨i, hi⟩ := List.mem_iff_getElem?.mp hproperty
    have hmem : (property, i) ∈ (sheet.graph.get id).properties.zipIdx :=
      List.mem_zipIdx_iff_getElem?.mpr hi
    exact (hproperties.of_flatMap hmem).right
  unfold classLines
  rw [List.append_assoc]
  refine (heading_writes hhelp indent _ h.left.left).bind fun _ => ?_
  refine (supertypes_writes hhelp _ h.left.right).bind fun _ => ?_
  refine Writes.bind (Writes.mapM fun property hproperty =>
    fieldLines_writes hhelp (indent + 1) id property (hproperties.of_flatMap hproperty)) fun _ => ?_
  refine (extension?_writes hhelp id h.right.right).before fun extension => ?_
  have haccessors : ∀ owner, Writes sheet most
      ((sheet.graph.get id).properties.mapM (accessors sheet (indent + 1) owner)) [] := fun owner =>
    (Writes.mapM fun property hproperty =>
      accessors_writes hhelp _ owner property (htype property hproperty)).none
  have hderived : ∀ {f : Lines → Lines}, Writes sheet most
      (do let derived ← derivedMembers sheet (indent + 1) (sheet.graph.get id); pure (f derived))
      [] := (derivedMembers_writes hhelp _ _).after fun _ => .pure _
  cases extension with
  | none =>
    simp only [pure_bind]
    exact (haccessors _).after fun _ => hderived
  | some e =>
    refine (extensionField_writes hhelp e _).after fun _ => (haccessors _).after fun _ => ?_
    exact (extensionAccessors_writes hhelp e _ _).after fun _ => hderived

theorem constantLines_writes (indent : Nat) (id : TypeId) (type : TypeRef) (count : Nat)
    (constant : EnumConstant × Nat)
    (h : sheet.Needs most (sheet.namedOn (.constant id constant.2))) :
    Writes sheet most (constantLines sheet indent id type count constant)
      (sheet.namedOn (.constant id constant.2)) :=
  (annotations_writes hhelp indent _ h).before fun _ => .pure _

theorem enumLines_writes (indent : Nat) {id : TypeId} (hkind : (sheet.graph.get id).kind = .enum)
    (h : sheet.Needs most (sheet.headNames id ++ sheet.bodyNames id)) :
    Writes sheet most (enumLines sheet indent id) (sheet.headNames id ++ sheet.bodyNames id) := by
  have hnot : ¬ TypeKind.enum = .bean := by decide
  simp only [Sheet.headNames, Sheet.bodyNames, hkind, hnot, if_false, List.append_nil] at h ⊢
  unfold enumLines
  refine (heading_writes hhelp indent _ h.left).bind fun _ => ?_
  refine (typeName_writes hhelp true _ h.right.left).bind fun _ => ?_
  refine (Writes.mapM fun constant hconstant => constantLines_writes hhelp _ id _ _ constant
    (h.right.right.of_flatMap hconstant)).before fun _ => ?_
  refine (collection_writes hhelp "Map" (by decide)).after fun _ => ?_
  refine (collection_writes hhelp "HashMap" (by decide)).after fun _ => ?_
  simp only [pure_bind]
  refine .ite ((jackson_writes hhelp "JsonValue" (by decide)).after fun _ => ?_) ?_
  all_goals
    exact .ite ((jackson_writes hhelp "JsonCreator" (by decide)).after fun _ => .pure _) (.pure _)

theorem openLines_writes (indent : Nat) (id : TypeId) (h : sheet.Needs most (sheet.names id)) :
    Writes sheet most (openLines sheet indent id) (sheet.names id) := by
  unfold Sheet.names at h ⊢
  unfold openLines
  split
  · exact classLines_writes hhelp indent ‹_› h
  · exact enumLines_writes hhelp indent ‹_› h
  · rename_i hkind
    have hnot : ¬ TypeKind.interface = .bean := by decide
    simp only [Sheet.headNames, Sheet.bodyNames, hkind, hnot, if_false, List.append_nil] at h ⊢
    exact (heading_writes hhelp indent _ h).before fun _ => .pure _

/-- A declaration writes what it names and what the declarations inside it name. -/
theorem declarationLines_writes : ∀ (fuel indent : Nat) (id : TypeId),
    sheet.Needs most ((sheet.graph.inside fuel id).flatMap sheet.names) →
    Writes sheet most (declarationLines sheet fuel indent id)
      ((sheet.graph.inside fuel id).flatMap sheet.names) := by
  intro fuel
  induction fuel with
  | zero => exact fun _ _ _ => .pure _
  | succ fuel ih =>
    intro indent id h
    rw [TypeGraph.inside, List.flatMap_cons, List.flatMap_assoc] at h ⊢
    refine (openLines_writes hhelp indent id h.left).bind fun _ => ?_
    exact (Writes.mapM fun inner hinner =>
      ih (indent + 1) inner (h.right.of_flatMap hinner)).before fun _ => .pure _

end Pieces

end SchemaBeans.Java
