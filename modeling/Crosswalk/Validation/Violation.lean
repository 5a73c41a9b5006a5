import Crosswalk.Link
import Crosswalk.Json.Writer
import Crosswalk.Text.Basic

/-!
# Violations

A `Complaint` says what is wrong with a value in the eyes of one keyword of a schema, and a
`Violation` says in addition where the value stands in the instance and where the keyword stands in
the schema. The second path leads through references: it says how the keyword was reached, not where
it is written.
-/

namespace Crosswalk

/-- What is wrong with a value. -/
inductive Complaint where
  /-- It has none of the types. -/
  | wrongType (value : Json) (types : List String)
  /-- It lacks a property. -/
  | missing (name : String)
  /-- It has properties that are not declared. -/
  | unexpected (names : List String)
  /-- Nothing is admitted in its place. -/
  | forbidden (value : Json)
  | tooShort (value : Json) (least : Nat)
  | tooLong (value : Json) (most : Nat)
  | tooFew (value : Json) (least : Nat)
  | tooMany (value : Json) (most : Nat)
  /-- It lies below a limit, or at it if the limit is strict. -/
  | below (value : Json) (strict : Bool) (limit : Number)
  /-- It lies above a limit, or at it if the limit is strict. -/
  | above (value : Json) (strict : Bool) (limit : Number)
  | notMultiple (value : Json) (factor : Number)
  | notListed (value : Json) (options : List Json)
  | notConstant (constant : Json)
  | unmatched (value : Json) (pattern : String)
  /-- None of the alternatives of the keyword admits it. -/
  | noAlternative (value : Json) (keyword : String)
  /-- More than one alternative admits it. -/
  | severalAlternatives (value : Json)
  /-- A schema admits it that must not. -/
  | excluded (value schema : Json)
  | notEncoded (value : Json) (encoding : String)
  /-- It has equal items. -/
  | repeating (value : Json)
  /-- It is no regular expression. -/
  | notRegex (pattern : String)

namespace Complaint

/-- A number of things, in the plural unless it is one. -/
def counted (n : Nat) (thing : String) : String :=
  toString n ++ " " ++ thing ++ (if n = 1 then "" else "s")

/-- Names in quotes. -/
def listed (quote : String) (names : List String) : String :=
  Text.join ", " (names.map fun name => quote ++ name ++ quote)

/-- The text of a number. -/
def numberText (n : Number) : String := (Json.number n).compact

/-- The text of a complaint. -/
def message : Complaint → String
  | wrongType value [type] => value.compact ++ " is not of type \"" ++ type ++ "\""
  | wrongType value types => value.compact ++ " is not of types " ++ listed "\"" types
  | missing name => (Json.string name).compact ++ " is a required property"
  | unexpected names =>
    "Additional properties are not allowed (" ++ listed "'" names ++
      (if names.length = 1 then " was" else " were") ++ " unexpected)"
  | forbidden value => "False schema does not allow " ++ value.compact
  | tooShort value least => value.compact ++ " is shorter than " ++ counted least "character"
  | tooLong value most => value.compact ++ " is longer than " ++ counted most "character"
  | tooFew value least => value.compact ++ " has less than " ++ counted least "item"
  | tooMany value most => value.compact ++ " has more than " ++ counted most "item"
  | below value strict limit =>
    value.compact ++ " is less than " ++ (if strict then "or equal to " else "") ++
      "the minimum of " ++ numberText limit
  | above value strict limit =>
    value.compact ++ " is greater than " ++ (if strict then "or equal to " else "") ++
      "the maximum of " ++ numberText limit
  | notMultiple value factor => value.compact ++ " is not a multiple of " ++ numberText factor
  | notListed value options => value.compact ++ " is not one of " ++ (Json.array options).compact
  | notConstant constant => constant.compact ++ " was expected"
  | unmatched value pattern => value.compact ++ " does not match \"" ++ pattern ++ "\""
  | noAlternative value keyword =>
    value.compact ++ " is not valid under any of the schemas listed in the '" ++ keyword ++
      "' keyword"
  | severalAlternatives value =>
    value.compact ++ " is valid under more than one of the schemas listed in the 'oneOf' keyword"
  | excluded value schema => schema.compact ++ " is not allowed for " ++ value.compact
  | notEncoded value encoding =>
    value.compact ++ " is not compliant with \"" ++ encoding ++ "\" content encoding"
  | repeating value => value.compact ++ " has non-unique elements"
  | notRegex pattern => (Json.string pattern).compact ++ " is not a \"regex\""

end Complaint

/-- A complaint with its place. -/
structure Violation where
  /-- The segments that lead to the value. -/
  instancePath : List String
  /-- The segments that lead to the keyword. -/
  schemaPath : List String
  complaint : Complaint

namespace Violation

/-- Segments as a pointer. -/
def pathText (segments : List String) : String :=
  String.join (segments.map fun s => "/" ++ Pointer.escape s)

/-- The keyword that complains: the last segment of its path. -/
def keyword (v : Violation) : String := (v.schemaPath.getLast?.map Pointer.escape).getD ""

/-- The text of a violation without its place. -/
def message (v : Violation) : String := v.complaint.message

/-- The line of a violation in a report. -/
def line (v : Violation) : String :=
  let path := pathText v.instancePath
  "  " ++ (if path = "" then "(root)" else path) ++ ": " ++ v.message ++ " [" ++ v.keyword ++ "]"

/-- The lines of violations. -/
def report (vs : List Violation) : String := Text.join "\n" (vs.map line)

end Violation

end Crosswalk
