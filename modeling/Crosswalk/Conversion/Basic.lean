import Crosswalk.Link
import Crosswalk.Linkage.Basic

/-!
# Conversions

A `Conversion` turns declarations into schemas for one file. It may end in a problem; on the way
it notes diagnostics, which stay noted even then, and it remembers which declarations it is inside
of. A named type is written once, in the document of its own file, and everywhere else only
referred to; but bases, model groups and attribute groups are expanded where they are used, and
`visiting` refuses to expand one within itself. Whatever happens inside, `visiting` leaves the
set of declarations as it was.
-/

namespace Crosswalk

/-- The declarations that a conversion is inside of. -/
structure Visited where
  simple : List QName := []
  complex : List QName := []
  groups : List QName := []
  attributeGroups : List QName := []
  deriving DecidableEq

/-- What a conversion changes. -/
structure ConversionState where
  diagnostics : List Problem := []
  visited : Visited := {}

/-- A result or a problem, and the state in either case. -/
abbrev Conversion (α : Type) := ExceptT Problem (StateM ConversionState) α

/-- What a conversion depends on: the linked batch, the options, and the file whose document is
made. -/
structure Conversion.Context where
  linkage : Linkage
  options : Options
  file : File

/-- Where a conversion is: in a file, and in one of its declarations. -/
structure Conversion.Site where
  scope : File
  location : String

namespace Conversion

/-- Whether a file is the one whose document is made. -/
def isOwn (context : Context) (scope : File) : Bool := scope.filename == context.file.filename

/-- Notes a diagnostic, unless it is noted already: a declaration that is expanded in several
places would repeat it. -/
def record (p : Problem) : Conversion Unit :=
  modify fun s =>
    if p ∈ s.diagnostics then s else { s with diagnostics := s.diagnostics ++ [p] }

/-- Notes a construct that is not carried over. Those of other files are noted when their own
documents are made. -/
def diagnose (context : Context) (scope : File) (location construct : String) : Conversion Unit :=
  if isOwn context scope then record (.unsupported scope.filename location construct) else pure ()

/-- Notes a construct at a site. -/
def Site.diagnose (context : Context) (site : Site) (construct : String) : Conversion Unit :=
  Conversion.diagnose context site.scope site.location construct

/-- The kinds of declarations that are expanded in place. -/
inductive Expandable where
  | simple
  | complex
  | group
  | attributeGroup

/-- The declarations of a kind that a conversion is inside of. -/
def Expandable.of (kind : Expandable) (v : Visited) : List QName :=
  match kind with
  | .simple => v.simple
  | .complex => v.complex
  | .group => v.groups
  | .attributeGroup => v.attributeGroups

/-- The set with other declarations of a kind. -/
def Expandable.set (kind : Expandable) (v : Visited) (names : List QName) : Visited :=
  match kind with
  | .simple => { v with simple := names }
  | .complex => { v with complex := names }
  | .group => { v with groups := names }
  | .attributeGroup => { v with attributeGroups := names }

/-- Expands a declaration that `scope` refers to. Inside of itself it is a cycle. -/
def visiting {α : Type} (kind : Expandable) (scope : File) (name : QName) (inside : Conversion α) :
    Conversion α := fun s =>
  if name ∈ kind.of s.visited then (.error (.cycle scope.filename name), s)
  else
    let entered := kind.set s.visited (name :: kind.of s.visited)
    let (result, after) := inside { s with visited := entered }
    let left := kind.set after.visited ((kind.of after.visited).erase name)
    (result, { after with visited := left })

/-- The name that has to stand for a declaration. -/
def found {α : Type} (scope : File) (referencing : String) (name : QName) (result : Option α) :
    Conversion α :=
  match result with
  | some a => pure a
  | none => throw (.unresolvedName scope.filename referencing name)

/-- A reference to a member of a section of a file's document. -/
def linkTo (context : Context) (target : File) (sectionName name : String) : Json :=
  let document := if isOwn context target then none else some target.identifier
  Link.schema (Link.text document sectionName name)

/-- The property of an element or attribute. If names are to be qualified, the prefix is the one
that the declaring file binds, or else the one of the file whose document is made. -/
def propertyName (context : Context) (scope : File) (name : QName) (qualified : Bool) : String :=
  if context.options.qualifiedPropertyNames && qualified && name.space != "" then
    match (scope.schema.prefixFor? name.space).or (context.file.schema.prefixFor? name.space) with
    | some p => p ++ ":" ++ name.name
    | none => name.name
  else name.name

/-- A schema with further keywords. A reference hides the keywords beside it, so that it becomes a
member of a conjunction first. -/
def withKeywords (schema : Json) (extras : Table String Json) : Json :=
  if extras.isEmpty then schema
  else
    let base := match schema with
      | .object fields =>
        if Table.contains fields "$ref" then [("allOf", Json.array [schema])] else fields
      | _ => [("allOf", Json.array [schema])]
    .object (extras.foldl (fun fields (name, value) => Table.insert fields name value) base)

/-- The keyword of a declaration's documentation, if it has any. -/
def descriptionOf (documentation : Option String) : Table String Json :=
  match documentation with
  | some text => [("description", .string text)]
  | none => []

end Conversion

end Crosswalk
