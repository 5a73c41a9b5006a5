import Crosswalk.Document
import Crosswalk.Validation.Check
import Crosswalk.Validation.Form

/-!
# Sets of documents

Documents that refer to each other are put into a set, and instances are checked against any of
them. A reference to another document is a URI, and the set knows its documents by the last segment
of theirs; a reference out of the set leads nowhere, and makes the document unusable. A document is
looked at as a whole before an instance is: it has to have the form of a schema, and everything that
a check can come to has to be there. That is what it needs: the regular expressions have to be
readable, and the references have to lead somewhere. The definitions of a schema take part in a
check only if a reference leads to them; `Need.ofSchema` includes them if it is asked to.

References may lead in circles, and a check follows them only so often: once for each schema of the
set and each value of the instance.
-/

namespace Crosswalk

/-! ### What a schema needs -/

/-- Something that a check depends on. -/
inductive Need where
  | reference (text : String)
  | expression (pattern : String)
  deriving DecidableEq

namespace Need

open Check

mutual

/-- The needs of a schema, those of its definitions included if `everywhere` says so. -/
def ofSchema (everywhere : Bool) : Json → List Need
  | .object fields =>
    match reference? fields with
    | some text => [.reference text]
    | none => ofFields everywhere fields
  | _ => []
termination_by structural s => s

/-- The needs of the keywords of a schema. -/
def ofFields (everywhere : Bool) : List (String × Json) → List Need
  | [] => []
  | (keyword, value) :: rest =>
    let here := match keyword with
      | "properties" => ofTable everywhere value
      | "definitions" => if everywhere then ofTable everywhere value else []
      | "allOf" | "anyOf" | "oneOf" => ofList everywhere value
      | "additionalProperties" | "items" | "not" => ofSchema everywhere value
      | "pattern" => value.string?.toList.map .expression
      | _ => []
    here ++ ofFields everywhere rest
termination_by structural s => s

/-- The needs of schemas given by name. -/
def ofTable (everywhere : Bool) : Json → List Need
  | .object entries => ofEntries everywhere entries
  | _ => []
termination_by structural s => s

/-- The needs of schemas given by name in turn. -/
def ofEntries (everywhere : Bool) : List (String × Json) → List Need
  | [] => []
  | (_, schema) :: rest => ofSchema everywhere schema ++ ofEntries everywhere rest
termination_by structural s => s

/-- The needs of a list of schemas. -/
def ofList (everywhere : Bool) : Json → List Need
  | .array items => ofMembers everywhere items
  | _ => []
termination_by structural s => s

/-- The needs of schemas in turn. -/
def ofMembers (everywhere : Bool) : List Json → List Need
  | [] => []
  | schema :: rest => ofSchema everywhere schema ++ ofMembers everywhere rest
termination_by structural s => s

end

/-- The references among needs. -/
def references (needs : List Need) : List String :=
  needs.filterMap fun
    | .reference text => some text
    | .expression _ => none

/-- The regular expressions among needs that cannot be read. -/
def unreadable (needs : List Need) : List String :=
  needs.filterMap fun
    | .reference _ => none
    | .expression pattern => if (Regex.ofText? pattern).isSome then none else some pattern

end Need

/-! ### Documents -/

/-- Why a document cannot be used. -/
inductive Unusable where
  /-- A reference leads to a document that is not in the set. -/
  | absentDocument (uri : String)
  /-- A reference leads nowhere in its document. -/
  | brokenPointer (pointer : String)
  | malformed (complaint : Complaint)

/-- The text of the reason. -/
def Unusable.message : Unusable → String
  | absentDocument uri =>
    "Resource '" ++ uri ++ "' is not present in a registry and retrieving it failed: '" ++ uri ++
      "' is not part of this schema set"
  | brokenPointer pointer => "Pointer '" ++ pointer ++ "' does not exist"
  | malformed complaint => complaint.message

/-- Why an instance was not found valid. -/
inductive Rejection where
  /-- It violates the document. -/
  | violations (schemaName : String) (violations : List Violation)
  /-- There is no document of that name. -/
  | notFound (schemaName : String)
  /-- The document cannot be used. -/
  | unusable (schemaName : String) (reason : Unusable)

/-- The text of a rejection. -/
def Rejection.message : Rejection → String
  | violations name vs =>
    "validation failed against schema '" ++ name ++ "':\n" ++ Violation.report vs
  | notFound name => "schema '" ++ name ++ "' is not part of this schema set"
  | unusable name reason =>
    "validator build error for schema '" ++ name ++ "': " ++ reason.message

/-- Documents by name. -/
structure SchemaSet where
  documents : Table String Json := []

namespace SchemaSet

/-- Adds a document in place of one that has its name. -/
def add (set : SchemaSet) (name : String) (schema : Json) : SchemaSet :=
  ⟨set.documents.insert name schema⟩

/-- Adds documents under their own names. -/
def addDocuments (set : SchemaSet) (documents : List Document) : SchemaSet :=
  documents.foldl (fun set d => set.add d.identifier d.schema) set

/-- The set of some documents. -/
def ofDocuments (documents : List Document) : SchemaSet := addDocuments {} documents

/-- The names of the documents. -/
def names (set : SchemaSet) : List String := set.documents.keys

/-- The document of a name. -/
def get? (set : SchemaSet) (name : String) : Option Json := set.documents.find? name

/-! ### References -/

/-- The URI that references are relative to. -/
def baseUri : String := "json-schema:///"

/-- The URI that the first part of a reference makes. One that names a scheme stands for itself. -/
def uriOf (name : String) : String := if name.toList.contains ':' then name else baseUri ++ name

/-- What follows the last slash, up to the fragment. -/
def lastSegment (uri : String) : String :=
  String.ofList (Text.lastPiece (· == '/') (uri.toList.takeWhile (· != '#')))

/-- The document of a URI: one whose name is the URI, or else its last segment, decoded or as it
is. -/
def retrieve? (set : SchemaSet) (uri : String) : Option Json :=
  let segment := lastSegment uri
  ((set.get? uri).or ((Percent.decode? segment).bind set.get?)).or (set.get? segment)

/-- A document with its URI. -/
structure Home where
  uri : String
  document : Json

/-- The document that a reference leads to. The document that an instance is checked against is
known by the name that it gives itself as well. -/
def target? (set : SchemaSet) (root home : Home) (name : String) : Except Unusable Home :=
  if name = "" then .ok home
  else
    let uri := uriOf name
    if uri = root.uri then .ok root
    else match set.retrieve? uri with
      | some document => .ok ⟨uri, document⟩
      | none => .error (.absentDocument uri)

/-- The two parts of a reference. -/
def partsOf (reference : String) : String × String :=
  (Link.split? reference).getD (reference, "")

/-- What a reference leads to, with the document that it is in. -/
def follow? (set : SchemaSet) (root home : Home) (reference : String) :
    Except Unusable (Home × Json) := do
  let (name, fragment) := partsOf reference
  let target ← set.target? root home name
  match (Percent.decode? fragment).bind target.document.pointed? with
  | some schema => .ok (target, schema)
  | none => .error (.brokenPointer fragment)

/-- The document of a set that an instance is checked against, with the URI that it gives itself. -/
def rootOf (document : Json) : Home :=
  ⟨uriOf (((document.field? "$id").bind Json.string?).getD ""), document⟩

/-! ### Fitness for use -/

/-- How many values there are in the documents. -/
def size (set : SchemaSet) : Nat := set.documents.foldl (fun n e => n + e.2.size) 1

/-- The names of the other documents that a document refers to. -/
def neighbours (document : Json) : List String :=
  ((Need.references (Need.ofSchema true document)).map fun r => (partsOf r).1).filter (· != "")

/-- Looks for documents by name, and by the names that these refer to. The result is the first one
that is not there. -/
def absent? (set : SchemaSet) (root : Home) : Nat → List String → List String → Option Unusable
  | 0, _, _ => none
  | _, _, [] => none
  | steps + 1, seen, name :: rest =>
    if seen.contains name then absent? set root steps seen rest
    else match set.target? root root name with
      | .error reason => some reason
      | .ok home => absent? set root steps (name :: seen) (rest ++ neighbours home.document)

/-- Looks at everything that a check can come to. The result is the first thing that cannot be
used. -/
def obstacle? (set : SchemaSet) (root : Home) :
    Nat → List String → List (Home × Need) → Option Unusable
  | 0, _, _ => none
  | _, _, [] => none
  | steps + 1, seen, (_, .expression pattern) :: rest =>
    if (Regex.ofText? pattern).isSome then obstacle? set root steps seen rest
    else some (.malformed (.notRegex pattern))
  | steps + 1, seen, (home, .reference text) :: rest =>
    let (name, fragment) := partsOf text
    let place := (if name = "" then home.uri else uriOf name) ++ "#" ++ fragment
    if seen.contains place then obstacle? set root steps seen rest
    else match set.follow? root home text with
      | .error reason => some reason
      | .ok (target, schema) =>
        obstacle? set root steps (place :: seen)
          ((Need.ofSchema false schema).map (fun need => (target, need)) ++ rest)

/-- Why a document of the set cannot be used, if it cannot. That another document is absent comes
before faults of form, and these before references that lead nowhere. -/
def unusable? (set : SchemaSet) (root : Home) : Option Unusable :=
  let steps := Nat.pow (set.size + 1) 3
  (set.absent? root steps [] (neighbours root.document)).or
    ((((Form.faults root.document).head?).map .malformed).or
      (set.obstacle? root steps []
        ((Need.ofSchema false root.document).map fun need => (root, need))))

/-! ### Checking -/

/-- How a check follows references, at most so often. -/
def following (set : SchemaSet) (root : Home) : Nat → Check.Follow Home
  | 0, _, _, _, _ => []
  | steps + 1, home, reference, value, p =>
    match set.follow? root home reference with
    | .ok (target, schema) => Check.check (following set root steps) target p value schema
    | .error _ => []

/-- The violations of an instance under a document that can be used. -/
def violations (set : SchemaSet) (root : Home) (value : Json) : List Violation :=
  Check.check (set.following root ((value.size + 1) * set.size)) root {} value root.document

/-- Checks an instance against the document of a name. -/
def validate (set : SchemaSet) (name : String) (value : Json) : Except Rejection Unit :=
  match set.get? name with
  | none => .error (.notFound name)
  | some document =>
    let root := rootOf document
    match set.unusable? root with
    | some reason => .error (.unusable name reason)
    | none =>
      match set.violations root value with
      | [] => .ok ()
      | vs => .error (.violations name vs)

end SchemaSet

end Crosswalk
