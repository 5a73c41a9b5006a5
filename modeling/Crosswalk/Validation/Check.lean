import Crosswalk.Regex
import Crosswalk.Text.Encoding
import Crosswalk.Validation.Violation

/-!
# Checking instances against schemas

`Schema.check` lists the violations of an instance: one for each keyword that it does not satisfy,
and one for each property that it lacks. A keyword about values of one type ignores the others. The
recursion descends into the schema; a reference leaves it, and is followed by a function that is
given. An object with a reference is nothing else: the keywords beside it are ignored.
-/

namespace Crosswalk

namespace Check

/-- Where a check stands; both paths have their last segment first. -/
structure Position where
  instancePath : List String := []
  schemaPath : List String := []

namespace Position

/-- One step into the schema. -/
def under (p : Position) (segment : String) : Position :=
  { p with schemaPath := segment :: p.schemaPath }

/-- One step into the instance. -/
def inside (p : Position) (segment : String) : Position :=
  { p with instancePath := segment :: p.instancePath }

/-- A complaint of the position. -/
def violation (p : Position) (complaint : Complaint) : Violation :=
  ⟨p.instancePath.reverse, p.schemaPath.reverse, complaint⟩

end Position

/-! ### Keywords without schemas -/

/-- Whether a value has a type. -/
def hasType (value : Json) (type : String) : Bool :=
  match value with
  | .null => type == "null"
  | .bool _ => type == "boolean"
  | .number n => type == "number" || (type == "integer" && n.isWhole)
  | .string _ => type == "string"
  | .array _ => type == "array"
  | .object _ => type == "object"

/-- The types in the order in which they are listed. -/
def allTypes : List String := ["array", "boolean", "integer", "null", "number", "object", "string"]

/-- The types that a schema names. -/
def typesOf : Json → List String
  | .string type => [type]
  | .array types => allTypes.filter fun type => types.any (Json.same (.string type))
  | _ => allTypes

/-- The number of characters or items that a schema names. -/
def countOf? : Json → Option Nat
  | .number (.int n) => some n.toNat
  | _ => none

/-- A complaint, unless something holds. -/
def complaintUnless (holds : Bool) (complaint : Complaint) : List Complaint :=
  if holds then [] else [complaint]

/-- The complaint about the length of a string. -/
def lengthComplaints (value : Json) (bound : Json) (holds : Nat → Nat → Bool)
    (complaint : Json → Nat → Complaint) : List Complaint :=
  match value, countOf? bound with
  | .string s, some n => complaintUnless (holds s.length n) (complaint value n)
  | _, _ => []

/-- The complaint about the number of items of an array. -/
def itemComplaints (value : Json) (bound : Json) (holds : Nat → Nat → Bool)
    (complaint : Json → Nat → Complaint) : List Complaint :=
  match value, countOf? bound with
  | .array items, some n => complaintUnless (holds items.length n) (complaint value n)
  | _, _ => []

/-- The complaint about a number. -/
def numberComplaints (value : Json) (bound : Json) (holds : Ordering → Bool)
    (complaint : Json → Number → Complaint) : List Complaint :=
  match value, bound with
  | .number a, .number b => complaintUnless (holds (a.compare b)) (complaint value b)
  | _, _ => []

/-- The exact value of a number, as a numerator over a denominator. -/
def ratioOf : Number → Int × Nat
  | .int n => (n, 1)
  | .float x => (x.signedNumerator, x.magnitude.2)

/-- Whether a number is a whole multiple of another one. -/
def isMultiple (a b : Number) : Bool :=
  let (n, d) := ratioOf a
  let (m, e) := ratioOf b
  (n * e) % (m * d) == 0

/-- The complaints of a keyword that has no schema inside. -/
def complaints (keyword : String) (bound value : Json) : List Complaint :=
  match keyword, bound with
  | "type", bound =>
    let types := typesOf bound
    complaintUnless (types.any (hasType value)) (.wrongType value types)
  | "enum", .array options =>
    complaintUnless (options.any (Json.same value)) (.notListed value options)
  | "const", constant => complaintUnless (constant.same value) (.notConstant constant)
  | "required", .array names =>
    match value with
    | .object fields =>
      (names.filterMap Json.string?).flatMap fun name =>
        complaintUnless (Table.contains fields name) (.missing name)
    | _ => []
  | "pattern", .string pattern =>
    match value, Regex.ofText? pattern with
    | .string s, some r => complaintUnless (r.found s) (.unmatched value pattern)
    | _, _ => []
  | "contentEncoding", .string "base64" =>
    match value with
    | .string s => complaintUnless (Base64.isEncoded s) (.notEncoded value "base64")
    | _ => []
  | "minLength", bound => lengthComplaints value bound (fun n least => least ≤ n) .tooShort
  | "maxLength", bound => lengthComplaints value bound (fun n most => n ≤ most) .tooLong
  | "minItems", bound => itemComplaints value bound (fun n least => least ≤ n) .tooFew
  | "maxItems", bound => itemComplaints value bound (fun n most => n ≤ most) .tooMany
  | "minimum", bound => numberComplaints value bound (· != .lt) (.below · false)
  | "maximum", bound => numberComplaints value bound (· != .gt) (.above · false)
  | "exclusiveMinimum", bound => numberComplaints value bound (· == .gt) (.below · true)
  | "exclusiveMaximum", bound => numberComplaints value bound (· == .lt) (.above · true)
  | "multipleOf", .number factor =>
    match value with
    | .number n => complaintUnless (isMultiple n factor) (.notMultiple value factor)
    | _ => []
  | _, _ => []

/-! ### Schemas -/

/-- How a reference is followed: it stands in the document `home`, and what it leads to is checked
at a position. -/
abbrev Follow (Home : Type) :=
  (home : Home) → (reference : String) → (value : Json) → Position → List Violation

/-- The reference that an object is. -/
def reference? (fields : Table String Json) : Option String :=
  (Table.find? fields "$ref").bind Json.string?

/-- The names of the properties that a schema declares. -/
def declared (fields : Table String Json) : Option (List String) :=
  ((Table.find? fields "properties").bind Json.fields?).map Table.keys

/-- The properties of an object that its schema does not declare. -/
def additional (fields : Table String Json) (value : Json) : List (String × Json) :=
  match value with
  | .object entries => entries.filter fun e => !((declared fields).getD []).contains e.1
  | _ => []

/-- The violation of a schema that admits no further properties. If it declares none at all, the
first property of the object is refused for itself. -/
def refusal (fields : Table String Json) (p : Position) (value : Json) : List Violation :=
  match declared fields, additional fields value with
  | _, [] => []
  | some _, extra => [p.violation (.unexpected (extra.map (·.1)))]
  | none, (_, first) :: _ => [p.violation (.forbidden first)]

/-- The violation of alternatives, given the violations under each of them. -/
def alternatives (keyword : String) (p : Position) (value : Json)
    (results : List (List Violation)) : List Violation :=
  match (results.filter List.isEmpty).length with
  | 0 => [p.violation (.noAlternative value keyword)]
  | 1 => []
  | _ => if keyword = "oneOf" then [p.violation (.severalAlternatives value)] else []

/-- The violations of all keywords. Those of properties come first if there must not be others. -/
def arrange (fields : Table String Json) (results : List (String × List Violation)) :
    List Violation :=
  match Table.find? fields "additionalProperties" with
  | none | some (.bool true) => results.flatMap (·.2)
  | some _ =>
    let (first, others) := results.partition fun e => e.1 == "properties"
    (first ++ others).flatMap (·.2)

variable {Home : Type}

mutual

/-- The violations of a value under a schema that stands in the document `home`. -/
def check (follow : Follow Home) (home : Home) (p : Position) (value : Json) :
    Json → List Violation
  | .bool true => []
  | .bool false => [p.violation (.forbidden value)]
  | .object fields =>
    match reference? fields with
    | some reference => follow home reference value (p.under "$ref")
    | none => arrange fields (checkKeywords follow home p value fields fields)
  | _ => []
termination_by structural s => s

/-- The violations of each keyword of `whole`. -/
def checkKeywords (follow : Follow Home) (home : Home) (p : Position) (value : Json)
    (whole : Table String Json) : List (String × Json) → List (String × List Violation)
  | [] => []
  | (keyword, bound) :: rest =>
    let p' := p.under keyword
    let here := match keyword with
      | "properties" => checkProperties follow home p' value bound
      | "additionalProperties" =>
        if bound.bool? = some false then refusal whole p' value
        else (additional whole value).flatMap fun (name, inner) =>
          check follow home (p'.inside name) inner bound
      | "items" =>
        match value with
        | .array items => items.zipIdx.flatMap fun (item, i) =>
            check follow home (p'.inside (toString i)) item bound
        | _ => []
      | "allOf" => (checkMembers follow home p' value bound).flatten
      | "anyOf" => alternatives keyword p' value (checkMembers follow home p' value bound)
      | "oneOf" => alternatives keyword p' value (checkMembers follow home p' value bound)
      | "not" =>
        if (check follow home p' value bound).isEmpty then [p'.violation (.excluded value bound)]
        else []
      | _ => (complaints keyword bound value).map p'.violation
    (keyword, here) :: checkKeywords follow home p value whole rest
termination_by structural s => s

/-- The violations of the declared properties that an object has. -/
def checkProperties (follow : Follow Home) (home : Home) (p : Position) (value : Json) :
    Json → List Violation
  | .object entries => checkEntries follow home p value entries
  | _ => []
termination_by structural s => s

/-- The violations of declared properties in turn. -/
def checkEntries (follow : Follow Home) (home : Home) (p : Position) (value : Json) :
    List (String × Json) → List Violation
  | [] => []
  | (name, schema) :: rest =>
    let here := match value.field? name with
      | some inner => check follow home ((p.under name).inside name) inner schema
      | none => []
    here ++ checkEntries follow home p value rest
termination_by structural s => s

/-- The violations under each schema of an array. -/
def checkMembers (follow : Follow Home) (home : Home) (p : Position) (value : Json) :
    Json → List (List Violation)
  | .array schemas => checkEach follow home p value 0 schemas
  | _ => []
termination_by structural s => s

/-- The violations under each of some schemas, the first of which has a given position. -/
def checkEach (follow : Follow Home) (home : Home) (p : Position) (value : Json)
    (i : Nat) : List Json → List (List Violation)
  | [] => []
  | schema :: rest =>
    check follow home (p.under (toString i)) value schema ::
      checkEach follow home p value (i + 1) rest
termination_by structural s => s

end

end Check

end Crosswalk
