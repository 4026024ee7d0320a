import SchemaBeans.Keywords.Basic
import SchemaBeans.TypeGraph
/-!
The constraints of a property, taken from the keywords of its schema.
-/

namespace SchemaBeans

/-- The bound of one side. A bound of its own under the exclusive keyword replaces the inclusive
one; a flag there only says how to read it. -/
def Bound.ofKeywords (inclusive : Option JsonNumber) (exclusive : Option ExclusiveBound) :
    Option Bound :=
  match exclusive with
  | some (.value limit) => some ⟨limit, true⟩
  | some (.flag flag) => inclusive.map (⟨·, flag⟩)
  | none => inclusive.map (⟨·, false⟩)

def Constraints.ofKeywords (k : Keywords) : Constraints where
  minimum := Bound.ofKeywords k.minimum k.exclusiveMinimum
  maximum := Bound.ofKeywords k.maximum k.exclusiveMaximum
  minSize := k.minItems <|> k.minLength
  maxSize := k.maxItems <|> k.maxLength
  pattern := k.pattern

end SchemaBeans
