import Crosswalk.Conversion.File
import Crosswalk.Digest

/-!
# Documents

A document holds the schemas of one file. Its root admits an object that names one or more of the
file's global elements and named types, each checked against its own schema. A link in a document
leads to a member of it or of another document of the batch; `Document.brokenLinks` lists those
that lead nowhere.
-/

namespace Crosswalk

/-- The schema document of a file. -/
structure Document where
  /-- The name of the document, by which links and readers know it. -/
  identifier : String
  /-- The file that it describes. -/
  source : String
  schema : Json

namespace Document

/-- The dialect of every document. -/
def dialect : String := "http://json-schema.org/draft-07/schema#"

/-- The properties of the root: the global elements, and references to the definitions of the named
types whose names no element has. -/
def properties (converted : Converted) : Table String Json :=
  let elements := Table.ofList converted.elements
  converted.types.foldl (fun properties name =>
    if Table.contains properties name then properties
    else Table.insert properties name (Link.schema (Link.text none "definitions" name))) elements

/-- The keywords of the root that list its properties, one of which an object has to have. -/
def propertyKeywords (properties : Table String Json) : List (String × Json) :=
  if properties.isEmpty then []
  else [("properties", .object properties),
    ("anyOf", .array (Shape.presence (Table.keys properties)))]

/-- The document of a file. -/
def assemble (options : Options) (source identifier : String) (description : Option String)
    (converted : Converted) : Document where
  identifier := identifier
  source := source
  schema := .ofFields ([
    ("$schema", .string dialect),
    ("$id", .string (Percent.encodePath identifier)),
    ("title", .string ("JSON Schema generated from " ++ source)),
    ("type", .string "object")] ++
    Conversion.descriptionOf description ++
    (if converted.definitions.isEmpty then []
      else [("definitions", .object converted.definitions)]) ++
    propertyKeywords (properties converted) ++
    (if options.isClosed then [("additionalProperties", .bool false)] else []))

/-! ### Links -/

mutual

/-- The links in a schema, each with the path to the object that holds it. -/
def linksIn (path : String) : Json → List (String × String)
  | .object fields => linksInFields path fields
  | .array items => linksInItems path 0 items
  | _ => []

/-- The links in the members of an object. -/
def linksInFields (path : String) : List (String × Json) → List (String × String)
  | [] => []
  | (name, value) :: rest =>
    let here := match name, value with
      | "$ref", .string link => [(path, link)]
      | _, _ => linksIn (path ++ "/" ++ name) value
    here ++ linksInFields path rest

/-- The links in the items of an array, from a position on. -/
def linksInItems (path : String) (position : Nat) : List Json → List (String × String)
  | [] => []
  | item :: rest =>
    linksIn (path ++ "/" ++ toString position) item ++ linksInItems path (position + 1) rest

end

/-- The document that the first part of a link names. -/
def target? (documents : List Document) (document : Document) (name : String) :
    Option Document :=
  if name = "" then some document
  else (Percent.decode? name).bind fun identifier =>
    documents.find? fun d => d.identifier == identifier

/-- What a link in a document leads to. -/
def linked? (documents : List Document) (document : Document) (link : String) : Option Json := do
  let (name, fragment) ← Link.split? link
  let target ← target? documents document name
  let pointer ← Percent.decode? fragment
  target.schema.pointed? pointer

/-- The links of documents that lead nowhere. -/
def brokenLinks (documents : List Document) : List Problem :=
  documents.flatMap fun document =>
    (linksIn "" document.schema).filterMap fun (path, link) =>
      match linked? documents document link with
      | some _ => none
      | none => some (.unresolvedName document.source ("$ref at " ++ path) ⟨"", link⟩)

end Document

end Crosswalk
