import Mathlib.Data.List.Nodup
import Mathlib.Data.List.Pairwise
import SchemaBeans.Java.Declaration
import SchemaBeans.Proofs.Generation.Filling
import SchemaBeans.Proofs.Java.Identifiers

/-! # The names of accessors

A field can be told from the end of its accessors' names: decapitalized, and with the underscore
that sets a reserved word apart, it is the field again. So only the verbs and the way around the
getter that every object has can bring two accessors together. -/
namespace SchemaBeans

namespace Names

/-- A name that is no reserved word: such a word gets an underscore before it. -/
def reserve (name : String) : String := if isReserved name then "_" ++ name else name

/-- The name is that of a field. -/
def IsField (name : String) : Prop := ∃ settings raw, name = propertyName settings raw

theorem decapitalize_capitalize_of_first {name : String}
    (h : ∀ c ∈ name.toList.head?, c.toNat < 128 ∧ c.toUpper.toLower = c) :
    decapitalize (capitalize name) = name := by
  unfold decapitalize capitalize
  rw [String.toList_ofList, ← String.toList_inj, String.toList_ofList]
  cases hchars : name.toList with
  | nil => rfl
  | cons first rest =>
    obtain ⟨hfirst, hback⟩ := h first (by rw [hchars, List.head?_cons, Option.mem_some])
    rw [recase_cons, Text.upper_eq_toUpper hfirst, List.singleton_append, recase_cons,
      Text.lower_eq_toLower (Text.toNat_toUpper_lt hfirst), hback, List.singleton_append]

theorem decapitalize_capitalize (delimiters : List Char) (raw : String) :
    decapitalize (capitalize (decapitalize (identifier delimiters raw))) =
      decapitalize (identifier delimiters raw) := by
  obtain ⟨first, rest, hname, hspelled⟩ := identifier_spelled delimiters raw
  have hfirst := hspelled.isIdentifierChar
  refine decapitalize_capitalize_of_first fun c hc => ?_
  rw [decapitalize_cons hname hfirst, List.head?_cons, Option.mem_some] at hc
  subst hc
  refine ⟨Text.toNat_toLower_lt (Text.toNat_lt_of_isIdentifierChar hfirst), ?_⟩
  rw [Char.toLower_toUpper_eq_toLower, Char.toLower_toLower_eq_toLower]

theorem decapitalize_capitalize_reserved {word : String} (h : isReserved word = true) :
    decapitalize (capitalize word) = word := by
  have hall : ∀ word ∈ reservedWords, word.toList.head?.all
      (fun c => c.toNat < 128 ∧ c.toUpper.toLower = c) = true := by decide +kernel
  refine decapitalize_capitalize_of_first fun c hc => ?_
  exact of_decide_eq_true
    ((Option.all_eq_true _ _).mp (hall word (List.contains_iff_mem.mp h)) c hc)

theorem IsField.exists_reserve {field : String} (h : IsField field) : ∃ name,
    decapitalize (capitalize name) = name ∧ field = reserve name := by
  obtain ⟨settings, raw, hfield⟩ := h
  exact ⟨_, decapitalize_capitalize settings.propertyWordDelimiters raw, hfield⟩

end Names

theorem Drafting.isField_propertyOf (settings : Settings) (required : List String) (key : String)
    (k : Keywords) (type : TypeRef) :
    Names.IsField (propertyOf settings required key k type).name :=
  ⟨settings, _, propertyOf_name settings required key k type⟩

namespace Java

open Names

theorem reserve_accessorSuffix {field : String} (h : IsField field) :
    reserve (decapitalize (accessorSuffix field)) = field := by
  obtain ⟨name, hname, rfl⟩ := h.exists_reserve
  unfold reserve
  by_cases hreserved : isReserved name = true
  · have hsuffix : accessorSuffix ("_" ++ name) = capitalize name := by
      have hchars : ("_" ++ name).toList = '_' :: name.toList := by simp
      unfold accessorSuffix
      rw [hchars]
      simp only [String.ofList_toList, if_pos hreserved]
    rw [if_pos hreserved, hsuffix, hname, if_pos hreserved]
  · rw [if_neg hreserved]
    unfold accessorSuffix
    split
    · rename_i rest hchars
      have hbare : "_" ++ String.ofList rest = name := by
        rw [← String.toList_inj, hchars]
        simp
      dsimp only
      split
      · rename_i hrest
        rw [decapitalize_capitalize_reserved hrest, if_pos hrest, hbare]
      · rw [hname, if_neg hreserved]
    · rw [hname, if_neg hreserved]

theorem accessorSuffix_injective {a b : String} (ha : IsField a) (hb : IsField b)
    (h : accessorSuffix a = accessorSuffix b) : a = b := by
  rw [← reserve_accessorSuffix ha, h, reserve_accessorSuffix hb]

def getterVerb (type : TypeRef) : String := if type = .scalar .boolean true then "is" else "get"

theorem getterName_eq (field : String) (type : TypeRef) : getterName field type =
    if getterVerb type ++ accessorSuffix field = "getClass" then "getClass_"
    else getterVerb type ++ accessorSuffix field := rfl

theorem getterName_ne_getClass (field : String) (type : TypeRef) :
    getterName field type ≠ "getClass" := by
  rw [getterName_eq]
  split
  · decide
  · assumption

theorem isField_class : IsField "_class" := ⟨{}, "class", by decide +kernel⟩

theorem isField_class_ : IsField "class_" := ⟨{}, "class_", by decide +kernel⟩

theorem isField_additionalProperties : IsField "additionalProperties" :=
  ⟨{}, "additionalProperties", by decide +kernel⟩

section Getters

variable {a b : String} {s t : TypeRef} (ha : IsField a) (hb : IsField b)

include ha hb

theorem getterVerb_append_inj :
    getterVerb s ++ accessorSuffix a = getterVerb t ++ accessorSuffix b ↔
      (s = .scalar .boolean true ↔ t = .scalar .boolean true) ∧ a = b := by
  have hsuffix : accessorSuffix a = accessorSuffix b ↔ a = b :=
    ⟨accessorSuffix_injective ha hb, congrArg _⟩
  rw [← hsuffix, ← String.toList_inj, ← String.toList_inj]
  unfold getterVerb
  split <;> split <;> simp [*]

theorem getterVerb_append_get :
    getterVerb s ++ accessorSuffix a = "get" ++ accessorSuffix b ↔
      s ≠ .scalar .boolean true ∧ a = b := by
  have hget : getterVerb .any = "get" := rfl
  rw [← hget, getterVerb_append_inj ha hb]
  simp

end Getters

theorem getterName_of_isField {field : String} (h : IsField field) (type : TypeRef) :
    getterName field type =
      if type ≠ .scalar .boolean true ∧ field = "_class" then "get" ++ accessorSuffix "class_"
      else getterVerb type ++ accessorSuffix field := by
  have hclass : "getClass" = "get" ++ accessorSuffix "_class" := by decide +kernel
  have hclass_ : "getClass_" = "get" ++ accessorSuffix "class_" := by decide +kernel
  rw [getterName_eq, hclass, hclass_]
  simp only [getterVerb_append_get h isField_class]

/-- The two fields whose getters come together behind the getter that every object has. -/
def Twins (a b : String) : Prop := a = "_class" ∧ b = "class_" ∨ a = "class_" ∧ b = "_class"

/-- Getters of different fields have the same name just for the two whose getters avoid the one that
every object has, unless one of these two is asked as a question. -/
theorem getterName_inj_iff {a b : String} {s t : TypeRef} (ha : IsField a) (hb : IsField b)
    (hne : a ≠ b) : getterName a s = getterName b t ↔
      Twins a b ∧ s ≠ .scalar .boolean true ∧ t ≠ .scalar .boolean true := by
  rw [getterName_of_isField ha, getterName_of_isField hb]
  by_cases hs : s ≠ .scalar .boolean true ∧ a = "_class"
  · obtain ⟨hs, rfl⟩ := hs
    have hother : ¬ (t ≠ .scalar .boolean true ∧ b = "_class") := fun h => hne h.2.symm
    rw [if_pos ⟨hs, rfl⟩, if_neg hother, eq_comm, getterVerb_append_get hb isField_class_]
    simp [Twins, hs, and_comm]
  · rw [if_neg hs]
    by_cases ht : t ≠ .scalar .boolean true ∧ b = "_class"
    · obtain ⟨ht, rfl⟩ := ht
      rw [if_pos ⟨ht, rfl⟩, getterVerb_append_get ha isField_class_]
      simp [Twins, ht, and_comm, hne]
    · rw [if_neg ht, getterVerb_append_inj ha hb]
      simp only [hne, and_false, false_iff]
      rintro ⟨⟨rfl, -⟩ | ⟨-, rfl⟩, hs', ht'⟩
      · exact hs ⟨hs', rfl⟩
      · exact ht ⟨ht', rfl⟩

theorem getterName_eq_extension {field : String} (h : IsField field) (type : TypeRef) :
    getterName field type = "getAdditionalProperties" ↔
      field = "additionalProperties" ∧ type ≠ .scalar .boolean true := by
  have hmap : "getAdditionalProperties" = "get" ++ accessorSuffix "additionalProperties" := by
    decide +kernel
  have hother : "get" ++ accessorSuffix "class_" ≠
      "get" ++ accessorSuffix "additionalProperties" := by decide +kernel
  rw [hmap, getterName_of_isField h]
  split
  · rename_i hclass
    obtain ⟨-, rfl⟩ := hclass
    simp [hother]
  · rw [getterVerb_append_get h isField_additionalProperties, and_comm]

/-- The methods of a property by name and number of parameters, which tells methods apart that are
not overloaded by types. -/
def accessorKeys (settings : Settings) (property : Property) : List (String × Nat) :=
  [(getterName property.name property.type, 0), ("set" ++ accessorSuffix property.name, 1)] ++
    if settings.generateBuilders then [("with" ++ accessorSuffix property.name, 1)] else []

def extensionKeys (settings : Settings) : List (String × Nat) :=
  [("getAdditionalProperties", 0), ("setAdditionalProperty", 2)] ++
    if settings.generateBuilders then [("withAdditionalProperty", 2)] else []

def derivedKeys (settings : Settings) : List (String × Nat) :=
  (if settings.includeToString then [("toString", 0)] else []) ++
    if settings.includeHashcodeAndEquals then [("hashCode", 0), ("equals", 1)] else []

def methodKeys (settings : Settings) (decl : TypeDecl) : List (String × Nat) :=
  decl.properties.flatMap (accessorKeys settings) ++
    (if decl.additionalProperties.isSome then extensionKeys settings else []) ++
    derivedKeys settings

/-- The getters of both fields that end in the word for a class avoid the getter of every object, in
the same way. -/
def ClassGetters (decl : TypeDecl) : Prop :=
  ∃ p ∈ decl.properties, ∃ q ∈ decl.properties, p.name = "_class" ∧ q.name = "class_" ∧
    p.type ≠ .scalar .boolean true ∧ q.type ≠ .scalar .boolean true

/-- A property has the name of the extension map, which is there too. -/
def MapField (decl : TypeDecl) : Prop :=
  decl.additionalProperties.isSome ∧ ∃ p ∈ decl.properties, p.name = "additionalProperties"

/-- A property has the getter of the extension map, which is there too. -/
def MapGetter (decl : TypeDecl) : Prop :=
  decl.additionalProperties.isSome ∧ ∃ p ∈ decl.properties, p.name = "additionalProperties" ∧
    p.type ≠ .scalar .boolean true

theorem comparedFields_nodup_iff {decl : TypeDecl}
    (hnames : (decl.properties.map Property.name).Nodup) :
    (comparedFields decl).Nodup ↔ ¬ MapField decl := by
  unfold comparedFields MapField
  split
  · rw [List.nodup_append', and_iff_right hnames, and_iff_right (List.nodup_singleton _),
      List.disjoint_singleton]
    simp [*]
  · simp [*]

section Keys

variable {settings : Settings} {p q : Property} {k : String × Nat}

theorem mem_accessorKeys : k ∈ accessorKeys settings p ↔ k = (getterName p.name p.type, 0) ∨
    k = ("set" ++ accessorSuffix p.name, 1) ∨
    settings.generateBuilders = true ∧ k = ("with" ++ accessorSuffix p.name, 1) := by
  unfold accessorKeys
  split <;> simp [*]

theorem mem_extensionKeys : k ∈ extensionKeys settings ↔ k = ("getAdditionalProperties", 0) ∨
    k = ("setAdditionalProperty", 2) ∨
    settings.generateBuilders = true ∧ k = ("withAdditionalProperty", 2) := by
  unfold extensionKeys
  split <;> simp [*]

theorem mem_derivedKeys (h : k ∈ derivedKeys settings) :
    k ∈ [("toString", 0), ("hashCode", 0), ("equals", 1)] := by
  unfold derivedKeys at h
  split at h <;> split at h <;> simp_all

theorem with_ne_set (a b : String) : "with" ++ a ≠ "set" ++ b := by
  simp [← String.toList_inj]

theorem accessorKeys_nodup : (accessorKeys settings p).Nodup := by
  unfold accessorKeys
  split
  · simp [(with_ne_set _ _).symm]
  · simp

theorem accessorKeys_disjoint (hp : IsField p.name) (hq : IsField q.name) (hne : p.name ≠ q.name) :
    (accessorKeys settings p).Disjoint (accessorKeys settings q) ↔
      getterName p.name p.type ≠ getterName q.name q.type := by
  have hsuffix : accessorSuffix p.name ≠ accessorSuffix q.name :=
    fun h => hne (accessorSuffix_injective hp hq h)
  simp only [List.disjoint_left, mem_accessorKeys]
  refine ⟨fun h heq => h (.inl rfl) (.inl (by rw [heq])), fun hgetter k hk hk' => ?_⟩
  rcases hk with rfl | rfl | ⟨-, rfl⟩
  · simp [hgetter] at hk'
  · simp [hsuffix, (with_ne_set _ _).symm] at hk'
  · simp [hsuffix, with_ne_set] at hk'

theorem accessorKeys_disjoint_extension (hp : IsField p.name) :
    (accessorKeys settings p).Disjoint (extensionKeys settings) ↔
      ¬ (p.name = "additionalProperties" ∧ p.type ≠ .scalar .boolean true) := by
  rw [← getterName_eq_extension hp]
  simp only [List.disjoint_left, mem_accessorKeys, mem_extensionKeys]
  refine ⟨fun h heq => h (.inl rfl) (.inl (by rw [heq])), fun hgetter k hk hk' => ?_⟩
  rcases hk with rfl | rfl | ⟨-, rfl⟩
  · simp [hgetter] at hk'
  · simp at hk'
  · simp at hk'

theorem accessorKeys_disjoint_derived :
    (accessorKeys settings p).Disjoint (derivedKeys settings) := by
  have hgetter : ∀ suffix, getterVerb p.type ++ suffix ≠ "toString" ∧
      getterVerb p.type ++ suffix ≠ "hashCode" := by
    intro suffix
    unfold getterVerb
    split <;> simp [← String.toList_inj]
  have hset : ∀ suffix, "set" ++ suffix ≠ "equals" := by simp [← String.toList_inj]
  have hwith : ∀ suffix, "with" ++ suffix ≠ "equals" := by simp [← String.toList_inj]
  intro k hk hk'
  have hk' := mem_derivedKeys hk'
  rcases mem_accessorKeys.mp hk with rfl | rfl | ⟨-, rfl⟩
  · rw [getterName_eq] at hk'
    split at hk'
    · exact absurd hk' (by decide)
    · simp [hgetter] at hk'
  · simp [hset] at hk'
  · simp [hwith] at hk'

theorem extensionKeys_nodup : (extensionKeys settings).Nodup := by
  unfold extensionKeys
  split <;> decide

theorem derivedKeys_nodup : (derivedKeys settings).Nodup := by
  unfold derivedKeys
  split <;> split <;> decide

theorem extensionKeys_disjoint_derived :
    (extensionKeys settings).Disjoint (derivedKeys settings) := by
  intro k hk hk'
  have hk' := mem_derivedKeys hk'
  rcases mem_extensionKeys.mp hk with rfl | rfl | ⟨-, rfl⟩ <;> simp at hk'

theorem fst_ne_getClass_of_mem_methodKeys {decl : TypeDecl} (h : k ∈ methodKeys settings decl) :
    k.1 ≠ "getClass" := by
  have hset : ∀ suffix, "set" ++ suffix ≠ "getClass" := by simp [← String.toList_inj]
  have hwith : ∀ suffix, "with" ++ suffix ≠ "getClass" := by simp [← String.toList_inj]
  rw [methodKeys, List.mem_append, List.mem_append, List.mem_flatMap] at h
  rcases h with (⟨p, -, h⟩ | h) | h
  · rcases mem_accessorKeys.mp h with rfl | rfl | ⟨-, rfl⟩
    · exact getterName_ne_getClass _ _
    · exact hset _
    · exact hwith _
  · split at h
    · rcases mem_extensionKeys.mp h with rfl | rfl | ⟨-, rfl⟩ <;> decide
    · cases h
  · have hall : ∀ k ∈ [("toString", 0), ("hashCode", 0), ("equals", 1)],
        k.1 ≠ "getClass" := by decide
    exact hall k (mem_derivedKeys h)

variable {decl : TypeDecl} (hfields : ∀ p ∈ decl.properties, IsField p.name)
  (hnames : (decl.properties.map Property.name).Nodup)

include hfields hnames

/-- Only the two fields that end in the word for a class can have accessors of the same name. -/
theorem accessors_nodup_iff :
    (decl.properties.flatMap (accessorKeys settings)).Nodup ↔ ¬ ClassGetters decl := by
  have hdistinct : ∀ p ∈ decl.properties, ∀ q ∈ decl.properties, p ≠ q → p.name ≠ q.name :=
    fun p hp q hq hne heq => hne (List.inj_on_of_nodup_map hnames hp hq heq)
  rw [List.nodup_flatMap, and_iff_right fun _ _ => accessorKeys_nodup]
  constructor
  · rintro hpairs ⟨p, hp, q, hq, hpname, hqname, hptype, hqtype⟩
    have hne : p.name ≠ q.name := by
      rw [hpname, hqname]
      decide
    have : Std.Symm (Function.onFun List.Disjoint (accessorKeys settings)) :=
      ⟨fun _ _ h _ hk hk' => h hk' hk⟩
    have hdisjoint := hpairs.forall hp hq fun h => hne (congrArg _ h)
    exact (accessorKeys_disjoint (hfields p hp) (hfields q hq) hne).mp hdisjoint
      ((getterName_inj_iff (hfields p hp) (hfields q hq) hne).mpr
        ⟨.inl ⟨hpname, hqname⟩, hptype, hqtype⟩)
  · intro hnot
    refine List.Nodup.pairwise_of_forall_ne (hnames.of_map _) fun p hp q hq hne => ?_
    have hne := hdistinct p hp q hq hne
    refine (accessorKeys_disjoint (hfields p hp) (hfields q hq) hne).mpr fun heq => hnot ?_
    obtain ⟨⟨hpname, hqname⟩ | ⟨hpname, hqname⟩, hptype, hqtype⟩ :=
      (getterName_inj_iff (hfields p hp) (hfields q hq) hne).mp heq
    · exact ⟨p, hp, q, hq, hpname, hqname, hptype, hqtype⟩
    · exact ⟨q, hq, p, hp, hqname, hpname, hqtype, hptype⟩

theorem methodKeys_nodup_iff :
    (methodKeys settings decl).Nodup ↔ ¬ ClassGetters decl ∧ ¬ MapGetter decl := by
  have hderived : (decl.properties.flatMap (accessorKeys settings)).Disjoint
      (derivedKeys settings) := by
    intro k hk hk'
    obtain ⟨p, -, hk⟩ := List.mem_flatMap.mp hk
    exact accessorKeys_disjoint_derived hk hk'
  have hextension : (decl.properties.flatMap (accessorKeys settings)).Disjoint
      (extensionKeys settings) ↔ ∀ p ∈ decl.properties,
        ¬ (p.name = "additionalProperties" ∧ p.type ≠ .scalar .boolean true) := by
    have hproperty := fun p hp => @accessorKeys_disjoint_extension settings p (hfields p hp)
    rw [← forall₂_congr hproperty]
    simp only [List.disjoint_left, List.mem_flatMap]
    exact ⟨fun h p hp k hk => h ⟨p, hp, hk⟩, fun h k ⟨p, hp, hk⟩ => h p hp hk⟩
  unfold methodKeys MapGetter
  split
  · rw [List.nodup_append', List.nodup_append', List.disjoint_append_left, hextension,
      accessors_nodup_iff hfields hnames]
    simp [*, extensionKeys_nodup, derivedKeys_nodup, extensionKeys_disjoint_derived]
  · rw [List.append_nil, List.nodup_append', accessors_nodup_iff hfields hnames]
    simp [*, derivedKeys_nodup]

end Keys

end Java

end SchemaBeans
