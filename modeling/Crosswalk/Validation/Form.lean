import Crosswalk.Validation.Check

/-!
# The form of schemas

A schema is an object or a truth value, and its keywords have values of certain forms: a list of
alternatives has at least one, no property is required twice, a length is a natural number, a
pattern is a regular expression. `Form.faults` lists what a schema does not keep to, itself and the
schemas inside it. Keywords that are not known are free.
-/

namespace Crosswalk

namespace Form

open Check

/-- The complaint about a value that is not of a type. -/
def typeFaults (type : String) (value : Json) : List Complaint :=
  complaintUnless (hasType value type) (.wrongType value [type])

/-- The faults of a number that has to be above zero, or may be zero if not `strict`. -/
def signFaults (strict : Bool) (value : Json) : List Complaint :=
  complaints (if strict then "exclusiveMinimum" else "minimum") (.nat 0) value

/-- The faults of a regular expression. -/
def patternFaults (value : Json) : List Complaint :=
  match value with
  | .string s => complaintUnless (Regex.ofText? s).isSome (.notRegex s)
  | value => typeFaults "string" value

/-- Whether some item occurs twice. -/
def hasRepetition : List Json → Bool
  | [] => false
  | a :: rest => rest.any a.same || hasRepetition rest

/-- The faults of a list of different names. -/
def nameFaults (value : Json) : List Complaint :=
  match value with
  | .array items =>
    items.flatMap (typeFaults "string") ++
      complaintUnless (!hasRepetition items) (.repeating value)
  | value => typeFaults "array" value

/-- Whether a value names a type. -/
def namesType (value : Json) : Bool := value.string?.any fun s => allTypes.contains s

/-- The faults of the types of a schema: one of them, or a list without repetition. -/
def typeNameFaults (value : Json) : List Complaint :=
  let holds := match value with
    | .array items => items.all namesType && !items.isEmpty && !hasRepetition items
    | value => namesType value
  complaintUnless holds (.noAlternative value "anyOf")

/-- The faults of a keyword that has no schema inside. -/
def keywordFaults (keyword : String) (value : Json) : List Complaint :=
  match keyword with
  | "required" => nameFaults value
  | "type" => typeNameFaults value
  | "pattern" => patternFaults value
  | "enum" | "examples" => typeFaults "array" value
  | "minLength" | "maxLength" | "minItems" | "maxItems" | "minProperties" | "maxProperties" =>
    signFaults false value ++ typeFaults "integer" value
  | "minimum" | "maximum" | "exclusiveMinimum" | "exclusiveMaximum" => typeFaults "number" value
  | "multipleOf" => signFaults true value ++ typeFaults "number" value
  | "uniqueItems" | "readOnly" => typeFaults "boolean" value
  | "$id" | "$schema" | "$ref" | "$comment" | "title" | "description" | "format"
  | "contentEncoding" | "contentMediaType" => typeFaults "string" value
  | _ => []

/-- The faults of the value of `items`, given those it has as a schema or as a list of schemas. -/
def itemsFaults (value : Json) (faults : List Complaint) : List Complaint :=
  complaintUnless faults.isEmpty (.noAlternative value "anyOf")

mutual

/-- The faults of a schema. -/
def faults : Json → List Complaint
  | .bool _ => []
  | .object fields => fieldFaults fields
  | .null => [.wrongType .null ["boolean", "object"]]
  | .number n => [.wrongType (.number n) ["boolean", "object"]]
  | .string s => [.wrongType (.string s) ["boolean", "object"]]
  | .array items => [.wrongType (.array items) ["boolean", "object"]]
termination_by structural s => s

/-- The faults of the keywords of a schema. -/
def fieldFaults : List (String × Json) → List Complaint
  | [] => []
  | (keyword, value) :: rest =>
    let here := match keyword with
      | "definitions" | "properties" | "patternProperties" => tableFaults value
      | "allOf" | "anyOf" | "oneOf" => listFaults value
      | "additionalProperties" | "additionalItems" | "not" | "contains" | "propertyNames" | "if"
      | "then" | "else" => faults value
      | "items" =>
        itemsFaults value (if hasType value "array" then listFaults value else faults value)
      | _ => keywordFaults keyword value
    here ++ fieldFaults rest
termination_by structural s => s

/-- The faults of schemas given by name. -/
def tableFaults : Json → List Complaint
  | .object entries => entryFaults entries
  | .null => typeFaults "object" .null
  | .bool b => typeFaults "object" (.bool b)
  | .number n => typeFaults "object" (.number n)
  | .string s => typeFaults "object" (.string s)
  | .array items => typeFaults "object" (.array items)
termination_by structural s => s

/-- The faults of schemas given by name in turn. -/
def entryFaults : List (String × Json) → List Complaint
  | [] => []
  | (_, schema) :: rest => faults schema ++ entryFaults rest
termination_by structural s => s

/-- The faults of a list of schemas, which has at least one. -/
def listFaults : Json → List Complaint
  | .array items =>
    memberFaults items ++ complaintUnless (!items.isEmpty) (.tooFew (.array items) 1)
  | .null => typeFaults "array" .null
  | .bool b => typeFaults "array" (.bool b)
  | .number n => typeFaults "array" (.number n)
  | .string s => typeFaults "array" (.string s)
  | .object fields => typeFaults "array" (.object fields)
termination_by structural s => s

/-- The faults of schemas in turn. -/
def memberFaults : List Json → List Complaint
  | [] => []
  | schema :: rest => faults schema ++ memberFaults rest
termination_by structural s => s

end

end Form

end Crosswalk
