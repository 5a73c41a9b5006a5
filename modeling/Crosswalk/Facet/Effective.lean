import Crosswalk.Datatype
import Crosswalk.Facet.Basic
import Crosswalk.Facet.Pattern
import Crosswalk.Json.Writer

/-!
# Effective facets

A chain of restrictions is flattened: from the built-in datatype to the derived type, the facets
of each step are applied to one `FacetSet`. A step may only narrow. A facet that admits more than
the inherited one is reported, and the inherited one is kept; so is a facet that cannot be read or
expressed. The patterns of one step are alternatives, and those of different steps must all
match, so every step adds one anchored expression. `FacetSet.keywords` is what remains of the
chain in a document.
-/

namespace Crosswalk

/-- The end of a range. -/
structure Bound where
  /-- The value as written, without blanks around it. -/
  lexical : String
  /-- The value in comparisons. -/
  value : Double
  /-- Whether the value itself lies outside the range. -/
  exclusive : Bool
  deriving DecidableEq, Repr

namespace Bound

/-- The bound that a text denotes. -/
def ofText? (text : String) (exclusive : Bool) : Option Bound :=
  ((Numeral.ofText? text).bind Numeral.toDouble?).map fun value =>
    ⟨Text.trim text, value, exclusive⟩

/-- A bound in messages. -/
def text (b : Bound) (lower : Bool) : String :=
  (match lower, b.exclusive with
    | true, false => ">="
    | true, true => ">"
    | false, false => "<="
    | false, true => "<") ++ " " ++ b.lexical

/-- Whether the bound, as a lower one, admits no value that `base` does not. -/
def lowerWithin (b base : Bound) : Bool :=
  match b.value.compare base.value with
  | .gt => true
  | .eq => b.exclusive || !base.exclusive
  | .lt => false

/-- Whether the bound, as an upper one, admits no value that `base` does not. -/
def upperWithin (b base : Bound) : Bool :=
  match b.value.compare base.value with
  | .lt => true
  | .eq => b.exclusive || !base.exclusive
  | .gt => false

end Bound

/-- The facets in effect for a type. -/
structure FacetSet where
  minLength : Option Nat := none
  maxLength : Option Nat := none
  /-- An anchored expression for each step; a value matches all of them. -/
  patterns : List String := []
  /-- The values that the last enumerating step admits, as written. -/
  enumeration : Option (List String) := none
  lower : Option Bound := none
  upper : Option Bound := none
  totalDigits : Option Nat := none
  fractionDigits : Option Nat := none
  deriving DecidableEq, Repr

/-- What is noteworthy about a facet of a step. -/
inductive FacetIssue where
  /-- The facet admits more than the inherited one. -/
  | widening (facet : FacetKind) (baseValue value : String)
  /-- The facet has no meaning for the value space, or no keyword. -/
  | notApplicable (facet : FacetKind)
  /-- The value cannot be read. -/
  | invalid (facet : FacetKind) (value : String)
  /-- A part of the facet is not enforced. -/
  | unenforced (facet : FacetKind) (detail : String)
  /-- The pattern has no counterpart. -/
  | untranslatable (value : String) (refusal : Pattern.Refusal)
  deriving DecidableEq, Repr

namespace FacetSet

/-- The facets that come with a built-in datatype. -/
def ofDatatype (d : Datatype) : FacetSet where
  patterns := d.pattern.toList
  lower := d.least.bind (Bound.ofText? · false)
  upper := d.greatest.bind (Bound.ofText? · false)

/-- A stated number beside the inherited one; `widens` says whether it admits more. The result is
the number in effect and the issue, if any. -/
def narrowNumber (widens : Nat → Nat → Bool) (facet : FacetKind) (base : Option Nat) (n : Nat) :
    Option Nat × List FacetIssue :=
  match base with
  | some b =>
    if widens n b then (some b, [.widening facet (Nat.repr b) (Nat.repr n)]) else (some n, [])
  | none => (some n, [])

/-- A stated bound beside the inherited one. -/
def narrowBound (lower : Bool) (facet : FacetKind) (base : Option Bound) (b : Bound) :
    Option Bound × List FacetIssue :=
  match base with
  | some inherited =>
    let within := if lower then b.lowerWithin inherited else b.upperWithin inherited
    if within then (some b, [])
    else (some inherited, [.widening facet (inherited.text lower) (b.text lower)])
  | none => (some b, [])

/-- States a least length. -/
def narrowMinLength (s : FacetSet) (facet : FacetKind) (n : Nat) : FacetSet × List FacetIssue :=
  let (value, issues) := narrowNumber (fun n b => n < b) facet s.minLength n
  ({ s with minLength := value }, issues)

/-- States a greatest length. -/
def narrowMaxLength (s : FacetSet) (facet : FacetKind) (n : Nat) : FacetSet × List FacetIssue :=
  let (value, issues) := narrowNumber (fun n b => b < n) facet s.maxLength n
  ({ s with maxLength := value }, issues)

/-- States a lower bound. -/
def narrowLower (s : FacetSet) (facet : FacetKind) (b : Bound) : FacetSet × List FacetIssue :=
  let (value, issues) := narrowBound true facet s.lower b
  ({ s with lower := value }, issues)

/-- States an upper bound. -/
def narrowUpper (s : FacetSet) (facet : FacetKind) (b : Bound) : FacetSet × List FacetIssue :=
  let (value, issues) := narrowBound false facet s.upper b
  ({ s with upper := value }, issues)

/-- States a number of digits. -/
def narrowTotalDigits (s : FacetSet) (n : Nat) : FacetSet × List FacetIssue :=
  let (value, issues) := narrowNumber (fun n b => b < n) .totalDigits s.totalDigits n
  ({ s with totalDigits := value }, issues)

/-- States a number of digits behind the point. -/
def narrowFractionDigits (s : FacetSet) (n : Nat) : FacetSet × List FacetIssue :=
  let (value, issues) := narrowNumber (fun n b => b < n) .fractionDigits s.fractionDigits n
  ({ s with fractionDigits := value }, issues)

end FacetSet

/-- Whether a facet can be expressed for a value space. -/
def FacetKind.applies (space : ValueSpace) : FacetKind → Bool
  | .length => space.hasLength
  | .minLength => space.hasLength
  | .maxLength => space.hasLength
  | .pattern => space.hasPattern
  | .minInclusive => space.isNumeric
  | .maxInclusive => space.isNumeric
  | .minExclusive => space.isNumeric
  | .maxExclusive => space.isNumeric
  | .totalDigits => space.isNumeric
  | .fractionDigits => space.isNumeric
  | .enumeration => true
  | .whiteSpace => true

/-- A derivation step part way through its facets. -/
structure FacetStep where
  /-- The facets in effect so far; patterns and enumeration join them at the end. -/
  facets : FacetSet
  issues : List FacetIssue := []
  patterns : List String := []
  enumeration : List String := []
  statesTotal : Bool := false
  statesFraction : Bool := false

namespace FacetStep

/-- Reports an issue. -/
def report (step : FacetStep) (issue : FacetIssue) : FacetStep :=
  { step with issues := step.issues ++ [issue] }

/-- Takes over what a statement did to the facets. -/
def settle (step : FacetStep) (outcome : FacetSet × List FacetIssue) : FacetStep :=
  { step with facets := outcome.1, issues := step.issues ++ outcome.2 }

/-- States a number, unless it cannot be read. -/
def withNumber (step : FacetStep) (facet : Facet) (admitted : Nat → Bool)
    (state : FacetStep → Nat → FacetStep) : FacetStep :=
  match (Numeral.word? facet.value).filter admitted with
  | some n => state step n
  | none => step.report (.invalid facet.kind facet.value)

/-- States a bound, unless it cannot be read. -/
def withBound (step : FacetStep) (facet : Facet) (exclusive : Bool)
    (state : FacetSet → FacetKind → Bound → FacetSet × List FacetIssue) : FacetStep :=
  match Bound.ofText? facet.value exclusive with
  | some b => step.settle (state step.facets facet.kind b)
  | none => step.report (.invalid facet.kind facet.value)

/-- Adds an alternative of the step's pattern. -/
def addPattern (step : FacetStep) (value : String) : FacetStep :=
  match Pattern.translate value with
  | .ok p => { step with patterns := step.patterns ++ [p] }
  | .error refusal => step.report (.untranslatable value refusal)

/-- Adds a value of the step's enumeration. A value without a number is dropped from the
enumeration of a numeric space. -/
def addValue (step : FacetStep) (space : ValueSpace) (value : String) : FacetStep :=
  if space.isNumeric && (Number.ofLexical? value).isNone then
    step.report (.unenforced .enumeration
      ("value '" ++ Text.trim value ++ "' has no JSON number form; dropped"))
  else { step with enumeration := step.enumeration ++ [value] }

/-- The greatest number of digits that can be stated. -/
def greatestDigits : Nat := 4294967295

/-- Works in the next facet. -/
def add (space : ValueSpace) (step : FacetStep) (facet : Facet) : FacetStep :=
  if !facet.kind.applies space then step.report (.notApplicable facet.kind)
  else match facet.kind with
    | .length => step.withNumber facet (fun _ => true) fun step n =>
        let step := step.settle (step.facets.narrowMinLength .length n)
        step.settle (step.facets.narrowMaxLength .length n)
    | .minLength => step.withNumber facet (fun _ => true) fun step n =>
        step.settle (step.facets.narrowMinLength .minLength n)
    | .maxLength => step.withNumber facet (fun _ => true) fun step n =>
        step.settle (step.facets.narrowMaxLength .maxLength n)
    | .pattern => step.addPattern facet.value
    | .enumeration => step.addValue space facet.value
    | .minInclusive => step.withBound facet false FacetSet.narrowLower
    | .minExclusive => step.withBound facet true FacetSet.narrowLower
    | .maxInclusive => step.withBound facet false FacetSet.narrowUpper
    | .maxExclusive => step.withBound facet true FacetSet.narrowUpper
    | .totalDigits => step.withNumber facet (fun n => 0 < n && n ≤ greatestDigits) fun step n =>
        { step.settle (step.facets.narrowTotalDigits n) with statesTotal := true }
    | .fractionDigits => step.withNumber facet (fun n => n ≤ greatestDigits) fun step n =>
        { step.settle (step.facets.narrowFractionDigits n) with statesFraction := true }
    | .whiteSpace => step

/-- Reports what digit counts leave open. Digits behind the point cannot be counted: a divisor
with a fraction would be evaluated in binary. -/
def noteDigits (space : ValueSpace) (step : FacetStep) : FacetStep :=
  let fraction := step.facets.fractionDigits.getD greatestDigits
  if space = .decimal ∧ 0 < fraction then
    let step := if step.statesFraction then
        step.report (.unenforced .fractionDigits
          ("at most " ++ Nat.repr fraction ++ " digit(s) after the decimal point is not enforced"))
      else step
    if step.statesTotal then
      step.report (.unenforced .totalDigits
        "only the integer part is bounded; fraction digits are not counted")
    else step
  else step

/-- Adds the expression of the step, if it states patterns. -/
def closePatterns (step : FacetStep) : FacetStep :=
  if step.patterns.isEmpty then step
  else { step with facets :=
    { step.facets with patterns := step.facets.patterns ++ [Pattern.anchored step.patterns] } }

/-- Replaces the enumeration by that of the step, if it states one that lies within. -/
def closeEnumeration (space : ValueSpace) (step : FacetStep) : FacetStep :=
  if step.enumeration.isEmpty then step
  else
    let replaced := { step with facets :=
      { step.facets with enumeration := some step.enumeration } }
    match step.facets.enumeration with
    | none => replaced
    | some base =>
      if step.enumeration.all fun v => base.any fun b => space.sameValue b v then replaced
      else step.report (.widening .enumeration (Text.join " | " base)
        (Text.join " | " step.enumeration))

end FacetStep

namespace FacetSet

/-- Applies the facets of a derivation step: the facets in effect after it, and what is noteworthy
about the step. -/
def apply (s : FacetSet) (facets : List Facet) (space : ValueSpace) :
    FacetSet × List FacetIssue :=
  let step := facets.foldl (FacetStep.add space) ⟨s, [], [], [], false, false⟩
  let step := ((step.noteDigits space).closePatterns).closeEnumeration space
  (step.facets, step.issues)

/-- The greatest power of ten that a digit count puts into a range. -/
def greatestMagnitude : Nat := 18

/-- The range that digit counts imply, without its ends: the magnitude lies below the power of ten
of the digits before the point. A count of more than eighteen is looser than a range in practice,
and puts nothing into the document. -/
def digitBounds (s : FacetSet) (space : ValueSpace) : Option (Bound × Bound) := do
  let total ← s.totalDigits
  let magnitude := if space = .integer then total
    else total - min (s.fractionDigits.getD 0) total
  if magnitude > greatestMagnitude then none
  let limit : Int := (Nat.pow 10 magnitude : Nat)
  let upper ← Bound.ofText? (String.ofList (Json.intChars limit)) true
  let lower ← Bound.ofText? (String.ofList (Json.intChars (-limit))) true
  return (lower, upper)

/-- The narrower of a range end and the one that digit counts imply. -/
def narrower (within : Bound → Bound → Bool) (stated implied : Option Bound) : Option Bound :=
  match stated, implied with
  | some b, some d => if within d b then some d else some b
  | none, some d => some d
  | stated, none => stated

/-- The lower end of the range. -/
def effectiveLower (s : FacetSet) (space : ValueSpace) : Option Bound :=
  narrower Bound.lowerWithin s.lower ((s.digitBounds space).map (·.1))

/-- The upper end of the range. -/
def effectiveUpper (s : FacetSet) (space : ValueSpace) : Option Bound :=
  narrower Bound.upperWithin s.upper ((s.digitBounds space).map (·.2))

/-- Adds the keyword of a range end: `names` are the one for an end that belongs to the range and
the one for an end that does not. -/
def withBound (keywords : Table String Json) (names : String × String) (bound : Option Bound) :
    Table String Json :=
  match bound with
  | some b =>
    Datatype.withKeyword keywords (if b.exclusive then names.2 else names.1)
      ((Number.ofLexical? b.lexical).map .number)
  | none => keywords

/-- Adds the expressions: the first in place, the others as members of a conjunction. -/
def withPatterns (keywords : Table String Json) : List String → Table String Json
  | [] => keywords
  | [p] => keywords.insert "pattern" (.string p)
  | p :: q :: rest =>
    (keywords.insert "pattern" (.string p)).insert "allOf"
      (.array ((q :: rest).map fun r => .object [("pattern", .string r)]))

/-- The keywords of the type with these facets that goes back to a datatype. -/
def keywords (s : FacetSet) (d : Datatype) : Table String Json :=
  let out := Datatype.withKeyword d.keywords "minLength" (s.minLength.map .nat)
  let out := Datatype.withKeyword out "maxLength" (s.maxLength.map .nat)
  let out := withPatterns out s.patterns
  let out := Datatype.withKeyword out "enum"
    (s.enumeration.map fun values => .array (values.map d.space.literal))
  let out := withBound out ("minimum", "exclusiveMinimum") (s.effectiveLower d.space)
  let out := withBound out ("maximum", "exclusiveMaximum") (s.effectiveUpper d.space)
  if s.fractionDigits = some 0 ∧ d.space = .decimal then out.insert "multipleOf" (.nat 1) else out

end FacetSet

end Crosswalk
