/-!
# Facets

A facet constrains the values of a simple type. Its value is kept as written.
-/

namespace Crosswalk

/-- The kinds of facets. -/
inductive FacetKind where
  | length
  | minLength
  | maxLength
  | pattern
  | enumeration
  | minInclusive
  | maxInclusive
  | minExclusive
  | maxExclusive
  | totalDigits
  | fractionDigits
  /-- Accepted and without effect: strings are judged as given. -/
  | whiteSpace
  deriving DecidableEq, Repr

namespace FacetKind

def all : List FacetKind :=
  [.length, .minLength, .maxLength, .pattern, .enumeration, .minInclusive, .maxInclusive,
    .minExclusive, .maxExclusive, .totalDigits, .fractionDigits, .whiteSpace]

/-- The name of the facet in a schema. -/
def name : FacetKind → String
  | .length => "length"
  | .minLength => "minLength"
  | .maxLength => "maxLength"
  | .pattern => "pattern"
  | .enumeration => "enumeration"
  | .minInclusive => "minInclusive"
  | .maxInclusive => "maxInclusive"
  | .minExclusive => "minExclusive"
  | .maxExclusive => "maxExclusive"
  | .totalDigits => "totalDigits"
  | .fractionDigits => "fractionDigits"
  | .whiteSpace => "whiteSpace"

/-- The facet with a name. -/
def ofName? (name : String) : Option FacetKind := all.find? fun kind => kind.name == name

@[simp] theorem ofName?_name (kind : FacetKind) : ofName? kind.name = some kind := by
  cases kind <;> decide

end FacetKind

/-- A facet with its value. -/
structure Facet where
  kind : FacetKind
  value : String
  deriving DecidableEq, Repr

end Crosswalk
