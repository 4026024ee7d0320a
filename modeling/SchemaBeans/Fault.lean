import SchemaBeans.Decoding
import SchemaBeans.FileSystem
import SchemaBeans.Json.Reader
import SchemaBeans.Location
/-!
What can go wrong in a generation run, as causes. Every fault has one message.
-/

namespace SchemaBeans

/-- Why a reference or a location leads to no schema. -/
inductive Unresolved where
  | circular
  | missingPointer
  | missingPath
  | notSchema
  | unsupportedScheme
  | unreadable (cause : FileFault)
  | malformedDocument (cause : Json.SyntaxFault)
  | malformedText (cause : Json.SyntaxFault)
  | notPointer
  | emptyPath
  deriving DecidableEq, Repr

def Unresolved.message : Unresolved → String
  | circular => "circular $ref chain"
  | missingPointer => "pointer does not exist in document"
  | missingPath => "path not present"
  | notSchema => "target is not a schema"
  | unsupportedScheme =>
    "unsupported scheme (only file: documents are read; register others in memory)"
  | unreadable cause => "cannot read document: " ++ cause.message
  | malformedDocument cause => "invalid JSON: " ++ cause.message
  | malformedText cause => cause.message
  | notPointer => "only JSON pointer fragments are supported"
  | emptyPath => "cannot make an empty path absolute"

inductive Unsupported where
  | keywords (cause : DecodingFault)
  | falseSchema
  | unknownType (name : String)
  | circularExtends
  | extendsNoObject
  | allOfIncludesItself
  | constantClash (first second : Json) (name : String)
  deriving Repr

def Unsupported.message : Unsupported → String
  | keywords cause => cause.message
  | falseSchema => "schema `false` matches nothing"
  | unknownType name => "unknown type `" ++ name ++ "`"
  | circularExtends => "circular `extends`"
  | extendsNoObject => "`extends` must describe an object type"
  | allOfIncludesItself => "`allOf` includes itself"
  | constantClash first second name =>
    "enum literals " ++ first.text ++ " and " ++ second.text ++ " both map to constant `" ++
      name ++ "`"

/-- What is wrong with a discriminator or with the family it declares. -/
inductive BadDiscriminator where
  | neitherNameNorObject
  | notString (key : String)
  | unknownInclude (mode : String)
  | unknownUse (mode : String)
  | includeWithoutName
  | childrenNoArray
  | childNoObject
  | childWithoutTarget
  | mappingNoObject
  | mappingNoReference (tag : String)
  | childNotGenerated
  | unknownClass (name : String)
  | duplicateTag (tag : String)
  | enumExtendsClass (name : String)
  | alreadyExtends (name : String)
  | parentIsEnum
  deriving DecidableEq, Repr

def BadDiscriminator.message : BadDiscriminator → String
  | neitherNameNorObject => "discriminator must be a property name or an object"
  | notString key => "`" ++ key ++ "` must be a string"
  | unknownInclude mode => "unknown include mode `" ++ mode ++ "`"
  | unknownUse mode => "unknown use mode `" ++ mode ++ "`"
  | includeWithoutName => "`propertyName` is required when `include` is set"
  | childrenNoArray => "`children` must be an array"
  | childNoObject => "each child must be an object"
  | childWithoutTarget => "each child needs exactly one of `$ref` and `className`"
  | mappingNoObject => "`mapping` must be an object"
  | mappingNoReference tag => "mapping for `" ++ tag ++ "` must be a reference string"
  | childNotGenerated => "child does not describe a generated type"
  | unknownClass name => "unknown child class `" ++ name ++ "`"
  | duplicateTag tag => "duplicate discriminator value `" ++ tag ++ "`"
  | enumExtendsClass name => "enum `" ++ name ++ "` cannot extend a class"
  | alreadyExtends name => "`" ++ name ++ "` already extends another type"
  | parentIsEnum => "an enum cannot carry a discriminator"

inductive BadSettings where
  | malformed (cause : Json.SyntaxFault)
  | invalid (cause : DecodingFault)
  | unreadable (path : String) (cause : FileFault)
  deriving Repr

def BadSettings.message : BadSettings → String
  | malformed cause => cause.message
  | invalid cause => cause.message
  | unreadable path cause => path ++ ": " ++ cause.message

inductive Fault where
  | unresolved (subject : String) (reason : Unresolved)
  | unsupported (place : Location) (reason : Unsupported)
  | nameConflict (name existing requested : String)
  | discriminator (place : Location) (reason : BadDiscriminator)
  | settings (reason : BadSettings)
  | file (cause : FileFault)
  | endless
  deriving Repr

def Fault.message : Fault → String
  | unresolved subject reason => "cannot resolve schema `" ++ subject ++ "`: " ++ reason.message
  | unsupported place reason =>
    "unsupported schema construct at `" ++ place.text ++ "`: " ++ reason.message
  | nameConflict name existing requested =>
    "name conflict on `" ++ name ++ "`: already used by `" ++ existing ++ "`, requested by `" ++
      requested ++ "`"
  | discriminator place reason =>
    "invalid discriminator on `" ++ place.text ++ "`: " ++ reason.message
  | settings reason => "invalid settings: " ++ reason.message
  | file cause => "I/O error: " ++ cause.message
  | endless => "schema does not come to an end"

end SchemaBeans
