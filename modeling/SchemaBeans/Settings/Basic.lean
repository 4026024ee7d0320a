/-!
Settings of a generation run. Where schemas come from and where sources go is not part of them.
-/

namespace SchemaBeans

/-- The library whose annotations the generated types carry. -/
inductive AnnotationStyle where
  | jackson2
  | gson
  | moshi
  | none
  deriving DecidableEq, Repr, Inhabited

def AnnotationStyle.supportsAdditionalProperties : AnnotationStyle → Bool
  | jackson2 => true
  | _ => false

def AnnotationStyle.supportsTypeInfo : AnnotationStyle → Bool
  | jackson2 => true
  | _ => false

/-- What a discriminator tag names: a declared name, or the class itself. -/
inductive Identification where
  | logicalName
  | className
  deriving DecidableEq, Repr, Inhabited

structure Settings where
  targetPackage : String := ""
  propertyWordDelimiters : List Char := []
  generateBuilders : Bool := false
  usePrimitives : Bool := false
  useLongIntegers : Bool := false
  useDoubleNumbers : Bool := true
  useBigDecimals : Bool := false
  includeHashcodeAndEquals : Bool := true
  includeToString : Bool := true
  includeJsr303Annotations : Bool := false
  useJakartaValidation : Bool := false
  includeDocumentation : Bool := true
  includeTypeInfo : Bool := true
  annotationStyle : AnnotationStyle := .jackson2
  includeAdditionalProperties : Bool := true
  initializeCollections : Bool := true
  useTitleAsClassName : Bool := false
  classNamePrefix : String := ""
  classNameSuffix : String := ""
  defaultDiscriminatorId : Identification := .logicalName
  deriving DecidableEq, Repr, Inhabited

def Settings.additionalPropertiesEnabled (s : Settings) : Bool :=
  s.includeAdditionalProperties && s.annotationStyle.supportsAdditionalProperties

end SchemaBeans
