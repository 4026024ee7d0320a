import SchemaBeans.Proofs.Java.Unbroken

/-! # Code without its annotations

Two sheets of one graph may carry different annotations and different documentation. Line by line
they are written with the same code: what stands in a line of code asks the graph and a few
settings only, and the headings, which ask the directives, leave no code. -/
namespace SchemaBeans.Java

open Text (Unbroken)

variable {α β γ δ : Type}

/-- Whatever was imported before, what the two pieces write is related. -/
def Parallel (x : Importing α) (y : Importing β) (R : α → β → Prop) : Prop :=
  ∀ before other, R (x.run before).1 (y.run other).1

/-- The two are the same and have a property. -/
def Alike (P : α → Prop) (a b : α) : Prop := b = a ∧ P a

namespace Parallel

variable {R : α → β → Prop} {x : Importing α} {y : Importing β}

theorem pure {a : α} {b : β} (h : R a b) : Parallel (pure a) (pure b) R := fun _ _ => h

theorem bind {S : γ → δ → Prop} {f : α → Importing γ} {g : β → Importing δ} (hxy : Parallel x y R)
    (hfg : ∀ a b, R a b → Parallel (f a) (g b) S) : Parallel (x >>= f) (y >>= g) S :=
  fun before other => hfg _ _ (hxy before other) _ _

/-- Something else is written first. -/
theorem after {S : γ → δ → Prop} {f : α → Importing γ} {g : β → Importing δ}
    (hfg : ∀ a b, Parallel (f a) (g b) S) : Parallel (x >>= f) (y >>= g) S :=
  fun _ _ => hfg _ _ _ _

theorem of_yields {P : α → Prop} {Q : β → Prop} (hx : Yields x P) (hy : Yields y Q)
    (h : ∀ a b, P a → Q b → R a b) : Parallel x y R :=
  fun before other => h _ _ (hx before) (hy other)

theorem imp {S : α → β → Prop} (hxy : Parallel x y R) (h : ∀ a b, R a b → S a b) :
    Parallel x y S := fun before other => h _ _ (hxy before other)

theorem bind_alike {P : α → Prop} {S : γ → δ → Prop} {x y : Importing α} {f : α → Importing γ}
    {g : α → Importing δ} (hxy : Parallel x y (Alike P))
    (hfg : ∀ a, P a → Parallel (f a) (g a) S) : Parallel (x >>= f) (y >>= g) S :=
  hxy.bind fun a b hab => by
    obtain ⟨rfl, ha⟩ := hab
    exact hfg _ ha

theorem mapM {R : γ → δ → Prop} {f : α → Importing γ} {g : α → Importing δ} {xs : List α}
    (h : ∀ a ∈ xs, Parallel (f a) (g a) R) :
    Parallel (xs.mapM f) (xs.mapM g) (List.Forall₂ R) := by
  induction xs with
  | nil => exact pure .nil
  | cons x rest ih =>
    rw [List.mapM_cons, List.mapM_cons]
    refine (h x List.mem_cons_self).bind fun first other hfirst => ?_
    refine (ih fun a ha => h a (List.mem_cons_of_mem _ ha)).bind fun rest others hrest => ?_
    exact pure (.cons hfirst hrest)

theorem mapM_alike {P : β → Prop} {f g : α → Importing β} {xs : List α}
    (h : ∀ a ∈ xs, Parallel (f a) (g a) (Alike P)) :
    Parallel (xs.mapM f) (xs.mapM g) (Alike fun ys => ∀ y ∈ ys, P y) := by
  refine (mapM h).imp fun ys zs hyz => ?_
  induction hyz with
  | nil => exact ⟨rfl, fun _ hy => absurd hy List.not_mem_nil⟩
  | cons hfirst _ ih =>
    obtain ⟨rfl, hfirst⟩ := hfirst
    obtain ⟨rfl, hrest⟩ := ih
    exact ⟨rfl, List.forall_mem_cons.mpr ⟨hfirst, hrest⟩⟩

end Parallel

/-- The same value type, or no map at all. -/
def SameExtension (a b : Option Extension) : Prop :=
  b.map (·.value) = a.map (·.value) ∧ ∀ e ∈ a, Unbroken e.value

theorem SameExtension.cases {a b : Option Extension} (hab : SameExtension a b) :
    a = none ∧ b = none ∨
      ∃ e f, a = some e ∧ b = some f ∧ f.value = e.value ∧ Unbroken e.value := by
  obtain ⟨hvalue, hunbroken⟩ := hab
  cases a with
  | none => exact .inl ⟨rfl, Option.map_eq_none_iff.mp hvalue⟩
  | some e =>
    obtain ⟨f, rfl, hf⟩ := Option.map_eq_some_iff.mp hvalue
    exact .inr ⟨e, f, rfl, rfl, hf, hunbroken e rfl⟩

/-- Two sheets of one graph. The settings that the code asks are the same, and neither sheet writes
a name that breaks a line. -/
structure Sheet.Twins (left right : Sheet) : Prop where
  leftWhole : left.Unbroken
  rightWhole : right.Unbroken
  graph : right.graph = left.graph
  builders : right.settings.generateBuilders = left.settings.generateBuilders
  collections : right.settings.initializeCollections = left.settings.initializeCollections
  shown : right.settings.includeToString = left.settings.includeToString
  compared : right.settings.includeHashcodeAndEquals = left.settings.includeHashcodeAndEquals

section Twins

variable {left right : Sheet} {type : TypeRef} (h : left.Twins right)

include h

theorem spelled_twins : right.spelled = left.spelled := by
  funext type
  cases type with
  | generated id => simp only [Sheet.spelled, h.graph]
  | library name => rfl

theorem typeText_twins (boxed : Bool) (type : TypeRef) :
    right.typeText boxed type = left.typeText boxed type := by
  induction type generalizing boxed with
  | any | string | scalar => rfl
  | library | generated => simp only [Sheet.typeText, spelled_twins h]
  | list element ih | set element ih => simp only [Sheet.typeText, ih]

theorem typeName_twins (boxed : Bool) (htype : ∀ name ∈ type.library?, Unbroken name) :
    Parallel (typeName left boxed type) (typeName right boxed type) (Alike Unbroken) := by
  refine .of_yields (typeName_yields boxed type) (typeName_yields boxed type) ?_
  rintro a b rfl rfl
  exact ⟨typeText_twins h boxed type, unbroken_typeText h.leftWhole.graph boxed htype⟩

omit h in
theorem collection?_library {element : TypeRef} {implementation : String}
    (hcollection : collection? type = some (implementation, element)) :
    Unbroken implementation ∧ element.library? = type.library? := by
  cases type with
  | list | set =>
    cases hcollection
    exact ⟨by decide, rfl⟩
  | _ => cases hcollection

theorem emptyInitializer_twins (htype : ∀ name ∈ type.library?, Unbroken name) :
    Parallel (emptyInitializer left type) (emptyInitializer right type) (Alike Unbroken) := by
  unfold emptyInitializer
  rw [h.collections]
  split
  · rename_i implementation element _ hcollection
    obtain ⟨himplementation, hlibrary⟩ := collection?_library hcollection
    refine .after fun _ _ => (typeName_twins h true (hlibrary ▸ htype)).bind_alike
      fun name hname => ?_
    refine .pure ⟨rfl, ?_⟩
    simp only [Text.unbroken_append]
    exact ⟨⟨⟨⟨by decide, himplementation⟩, by decide⟩, hname⟩, by decide⟩
  · exact .pure ⟨rfl, by decide⟩

theorem literal?_twins (htype : ∀ name ∈ type.library?, Unbroken name) (value : Json) :
    Parallel (literal? left type value) (literal? right type value)
      (Alike fun stated => ∀ text ∈ stated, Unbroken text) := by
  have hsome : ∀ {text : String}, Unbroken text →
      Parallel (pure (some text) : Importing (Option String)) (pure (some text))
        (Alike fun stated => ∀ text ∈ stated, Unbroken text) :=
    fun htext => .pure ⟨rfl, fun _ hmem => Option.some.inj hmem ▸ htext⟩
  have hnone : Parallel (pure none : Importing (Option String)) (pure none)
      (Alike fun stated => ∀ text ∈ stated, Unbroken text) := .pure ⟨rfl, nofun⟩
  have hlibrary : ∀ name text, type = .library name →
      Parallel (literal?.ofLibrary left name text) (literal?.ofLibrary right name text)
        (Alike fun stated => ∀ text ∈ stated, Unbroken text) := by
    rintro name text rfl
    unfold literal?.ofLibrary
    split
    · refine (typeName_twins h false htype).bind_alike fun simple hsimple => ?_
      exact .pure ⟨rfl, unbroken_libraryLiteral? name hsimple text⟩
    · exact hnone
  have hname : ∀ id, type = .generated id →
      Parallel (generatedName left id) (generatedName right id) (Alike Unbroken) := by
    rintro id rfl
    exact typeName_twins h false htype
  unfold literal?
  rw [h.graph]
  split
  · exact hsome (unbroken_stringLiteral _)
  · refine hsome ?_
    simp only [Text.unbroken_append]
    exact ⟨⟨by decide, JsonNumber.unbroken_text _⟩, by decide⟩
  · refine hsome ?_
    simp only [Text.unbroken_append]
    exact ⟨⟨by decide, unbroken_bool _⟩, by decide⟩
  · exact .pure ⟨rfl, unbroken_scalarLiteral? _ _⟩
  · exact hlibrary _ _ rfl
  · exact hlibrary _ _ rfl
  · dsimp only
    split
    · split
      · refine (hname _ rfl).bind_alike fun name hname => hsome ?_
        simp only [Text.unbroken_append]
        exact ⟨⟨⟨hname, by decide⟩, unbroken_enumLiteral _ _⟩, by decide⟩
      · exact hnone
    · split
      · refine (hname _ rfl).bind_alike fun name hname => hsome ?_
        simp only [Text.unbroken_append]
        exact ⟨⟨by decide, hname⟩, by decide⟩
      · exact hnone
    · exact hnone
  · exact hnone

theorem defaultInitializer?_twins (htype : ∀ name ∈ type.library?, Unbroken name) (value : Json) :
    Parallel (defaultInitializer? left type value) (defaultInitializer? right type value)
      (Alike fun stated => ∀ text ∈ stated, Unbroken text) := by
  unfold defaultInitializer?
  split
  · split
    · exact .pure ⟨rfl, nofun⟩
    · exact .pure ⟨rfl, fun _ htext => Option.some.inj htext ▸ by decide⟩
  · split
    · refine (literal?_twins h htype value).bind_alike fun stated hstated => .pure ⟨rfl, ?_⟩
      intro text htext
      obtain ⟨literal, hliteral, rfl⟩ := Option.map_eq_some_iff.mp htext
      exact Text.unbroken_append.mpr ⟨by decide, hstated literal hliteral⟩
    · rename_i implementation element hcollection
      obtain ⟨himplementation, hlibrary⟩ := collection?_library hcollection
      have helement : ∀ name ∈ element.library?, Unbroken name := hlibrary ▸ htype
      split
      · exact .pure ⟨rfl, nofun⟩
      · rename_i items _
        refine (Parallel.mapM_alike fun item _ => literal?_twins h helement item).bind_alike
          fun stated hstated => ?_
        dsimp only
        split
        · exact .pure ⟨rfl, nofun⟩
        · refine .after fun _ _ => .after fun _ _ =>
            (typeName_twins h true helement).bind_alike fun name hname => .pure ⟨rfl, ?_⟩
          intro text htext
          cases htext
          simp only [Text.unbroken_append]
          refine ⟨⟨⟨⟨⟨⟨by decide, himplementation⟩, by decide⟩, hname⟩, by decide⟩,
            .intercalate (by decide) fun literal hliteral => ?_⟩, by decide⟩
          obtain ⟨found, hfound, rfl⟩ := List.mem_filterMap.mp hliteral
          exact hstated _ hfound literal rfl

theorem initializer_twins (htype : ∀ name ∈ type.library?, Unbroken name) (default : Option Json) :
    Parallel (initializer left type default) (initializer right type default) (Alike Unbroken) := by
  have hempty := emptyInitializer_twins h htype
  unfold initializer
  cases default with
  | none => exact hempty
  | some value =>
    refine (defaultInitializer?_twins h htype value).bind_alike fun stated hstated => ?_
    cases stated with
    | none => exact hempty
    | some text => exact .pure ⟨rfl, hstated text rfl⟩

omit h in
theorem Statement.inside {text : String} (htext : Statement text) {indent : Nat}
    (hindent : 0 < indent) : IsCode (line indent text) :=
  htext.isCode fun hzero => absurd hindent (hzero ▸ Nat.lt_irrefl 0)

omit h in
theorem no_marks : ∀ mark ∈ ([] : List String), IsMark mark := List.forall_mem_nil _

omit h in
/-- A method is the same code under any annotations. -/
theorem method_corresponds {indent : Nat} (hindent : 0 < indent) {marks others : List String}
    (hmarks : ∀ mark ∈ marks, IsMark mark) (hothers : ∀ mark ∈ others, IsMark mark)
    {signature : String} (hsignature : Unbroken signature) {body : List String}
    (hbody : ∀ text ∈ body, Statement text) :
    Corresponds (method indent marks signature body) (method indent others signature body) := by
  have hopening : Statement (signature ++ " \x7b") := .append hsignature (by decide)
  have hclosing : Statement "\x7d" := by decide
  have hblank : Corresponds [""] [""] := .of_code (by simpa using isCode_empty)
  have hbodyLines : ∀ l ∈ body.map (line (indent + 1)), IsCode l := by
    intro l hl
    obtain ⟨text, htext, rfl⟩ := List.mem_map.mp hl
    exact (hbody text htext).inside (Nat.succ_pos indent)
  unfold method
  refine .append (.append (.append ?_ ?_) (.of_code hbodyLines)) ?_
  · exact hblank.append (.of_hidden (hidden_marks hmarks indent) (hidden_marks hothers indent))
  · exact .of_code (by simpa using hopening.inside hindent)
  · exact .of_code (by simpa using hclosing.inside hindent)

theorem heading_twins (indent : Nat) (target : Target) :
    Parallel (heading left indent target) (heading right indent target) Corresponds :=
  .of_yields (heading_hidden h.leftWhole indent target) (heading_hidden h.rightWhole indent target)
    fun _ _ => .of_hidden

theorem libraries_of_property {id : TypeId} {property : Property}
    (hproperty : property ∈ (left.graph.get id).properties) :
    ∀ name ∈ property.type.library?, Unbroken name :=
  (h.leftWhole.graph.get id).libraries _
    (by simp [TypeDecl.writtenTypes, List.mem_map_of_mem hproperty])

theorem fieldLines_twins {indent : Nat} (hindent : 0 < indent) {id : TypeId}
    {property : Property × Nat} (hproperty : property.1 ∈ (left.graph.get id).properties) :
    Parallel (fieldLines left indent id property) (fieldLines right indent id property)
      Corresponds := by
  have htype := libraries_of_property h hproperty
  refine (heading_twins h indent _).bind fun marks others hmarks => ?_
  refine (typeName_twins h false htype).bind_alike fun type htype => ?_
  refine (initializer_twins h ‹_› property.1.default).bind_alike fun initializer hinitializer => ?_
  refine .pure (hmarks.append (.of_code ?_))
  have hfield := (h.leftWhole.graph.get id).fields property.1 hproperty
  have hstatement : Statement
      ("private " ++ type ++ " " ++ property.1.name ++ initializer ++ ";") := by
    refine .append ?_ (by decide)
    simp only [Text.unbroken_append]
    exact ⟨⟨⟨⟨by decide, htype⟩, by decide⟩, hfield⟩, hinitializer⟩
  simpa using hstatement.inside hindent

theorem accessors_twins {indent : Nat} (hindent : 0 < indent) {owner : String}
    (howner : Unbroken owner) {id : TypeId} {property : Property}
    (hproperty : property ∈ (left.graph.get id).properties) :
    Parallel (accessors left indent owner property) (accessors right indent owner property)
      Corresponds := by
  have hfield := (h.leftWhole.graph.get id).fields property hproperty
  have hsuffix := unbroken_accessorSuffix hfield
  have hgetter := unbroken_getterName hfield property.type
  have hassignment : Statement ("this." ++ property.name ++ " = " ++ property.name ++ ";") := by
    refine .append ?_ (by decide)
    simp only [Text.unbroken_append]
    exact ⟨⟨⟨by decide, hfield⟩, by decide⟩, hfield⟩
  have hreturn : Statement ("return " ++ property.name ++ ";") :=
    .append (Text.unbroken_append.mpr ⟨by decide, hfield⟩) (by decide)
  refine (typeName_twins h false (libraries_of_property h hproperty)).bind_alike
    fun type htype => ?_
  have hparameter : Unbroken ("(" ++ type ++ " " ++ property.name ++ ")") := by
    simp only [Text.unbroken_append]
    exact ⟨⟨⟨⟨by decide, htype⟩, by decide⟩, hfield⟩, by decide⟩
  refine .pure (.append (.append ?_ ?_) ?_)
  · refine method_corresponds hindent no_marks no_marks ?_ (by simpa using hreturn)
    simp only [Text.unbroken_append]
    exact ⟨⟨⟨⟨by decide, htype⟩, by decide⟩, hgetter⟩, by decide⟩
  · refine method_corresponds hindent no_marks no_marks ?_ (by simpa using hassignment)
    rw [Text.unbroken_append, Text.unbroken_append]
    exact ⟨⟨by decide, hsuffix⟩, hparameter⟩
  · rw [h.builders]
    split
    · refine method_corresponds hindent no_marks no_marks ?_ ?_
      · rw [Text.unbroken_append, Text.unbroken_append, Text.unbroken_append, Text.unbroken_append]
        exact ⟨⟨⟨⟨by decide, howner⟩, by decide⟩, hsuffix⟩, hparameter⟩
      · simpa using ⟨hassignment, (by decide : Statement "return this;")⟩
    · exact .nil

theorem extension?_twins (id : TypeId) :
    Parallel (extension? left id) (extension? right id) SameExtension := by
  unfold extension?
  rw [h.graph]
  split
  · exact .pure ⟨rfl, nofun⟩
  · rename_i type htype
    have hlibraries : ∀ name ∈ type.library?, Unbroken name :=
      (h.leftWhole.graph.get id).libraries _ (by simp [TypeDecl.writtenTypes, htype])
    refine .after fun _ _ => .after fun _ _ =>
      (typeName_twins h true hlibraries).bind_alike fun value hvalue => .pure ⟨rfl, ?_⟩
    exact fun e he => Option.some.inj he ▸ hvalue

omit h in
theorem mark_isMark (e : Extension) {name : String} (hname : Unbroken name) :
    Yields (e.mark name) fun marks => ∀ mark ∈ marks, IsMark mark := by
  unfold Extension.mark
  split
  · refine (jackson_isMark hname).bind fun mark hmark => .pure ?_
    simpa using hmark
  · exact .pure nofun

omit h in
theorem marks_twins (a b : Extension) {name : String} (hname : Unbroken name) :
    Parallel (a.mark name) (b.mark name) fun marks others =>
      (∀ mark ∈ marks, IsMark mark) ∧ ∀ mark ∈ others, IsMark mark :=
  .of_yields (mark_isMark a hname) (mark_isMark b hname) fun _ _ => And.intro

omit h in
theorem Extension.unbroken_arguments {e : Extension} (he : Unbroken e.value) :
    Unbroken e.arguments := by
  simp only [Extension.arguments, Text.unbroken_append]
  exact ⟨⟨by decide, he⟩, by decide⟩

omit h in
theorem extensionField_corresponds {indent : Nat} (hindent : 0 < indent) {a b : Extension}
    (hvalue : b.value = a.value) (ha : Unbroken a.value) :
    Parallel (a.field indent) (b.field indent) Corresponds := by
  have harguments : b.arguments = a.arguments := by
    rw [Extension.arguments, hvalue, Extension.arguments]
  have hunbroken := Extension.unbroken_arguments ha
  refine (marks_twins a b (by decide)).bind ?_
  rintro marks others ⟨hmarks, hothers⟩
  refine .pure (.append (.of_hidden (hidden_marks hmarks indent) (hidden_marks hothers indent)) ?_)
  rw [harguments]
  refine .of_code ?_
  have hstatement : Statement ("private Map" ++ a.arguments ++
      " additionalProperties = new LinkedHashMap" ++ a.arguments ++ "();") := by
    refine .append ?_ (by decide)
    simp only [Text.unbroken_append]
    exact ⟨⟨⟨by decide, hunbroken⟩, by decide⟩, hunbroken⟩
  simpa using hstatement.inside hindent

theorem extensionAccessors_twins {indent : Nat} (hindent : 0 < indent) {owner : String}
    (howner : Unbroken owner) {a b : Extension} (hvalue : b.value = a.value)
    (ha : Unbroken a.value) :
    Parallel (a.accessors left indent owner) (b.accessors right indent owner) Corresponds := by
  have harguments : b.arguments = a.arguments := by
    rw [Extension.arguments, hvalue, Extension.arguments]
  have hunbroken := Extension.unbroken_arguments ha
  have hinsertion : Statement "this.additionalProperties.put(name, value);" := by decide
  have hparameters : Unbroken ("(String name, " ++ a.value ++ " value)") := by
    simp only [Text.unbroken_append]
    exact ⟨⟨by decide, ha⟩, by decide⟩
  refine (marks_twins a b (by decide)).bind ?_
  rintro getter other ⟨hgetter, hother⟩
  refine (marks_twins a b (by decide)).bind ?_
  rintro setter another ⟨hsetter, hanother⟩
  rw [harguments, hvalue, h.builders]
  refine .pure (.append (.append ?_ ?_) ?_)
  · refine method_corresponds hindent hgetter hother ?_ ?_
    · simp only [Text.unbroken_append]
      exact ⟨⟨by decide, hunbroken⟩, by decide⟩
    · simpa using (by decide : Statement "return this.additionalProperties;")
  · refine method_corresponds hindent hsetter hanother ?_ (by simpa using hinsertion)
    rw [Text.unbroken_append]
    exact ⟨by decide, hparameters⟩
  · split
    · refine method_corresponds hindent no_marks no_marks ?_ ?_
      · rw [Text.unbroken_append, Text.unbroken_append, Text.unbroken_append]
        exact ⟨⟨⟨by decide, howner⟩, by decide⟩, hparameters⟩
      · simpa using ⟨hinsertion, (by decide : Statement "return this;")⟩
    · exact .nil

end Twins

end SchemaBeans.Java
