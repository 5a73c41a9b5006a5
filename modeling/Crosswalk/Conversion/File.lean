import Crosswalk.Conversion.Content

/-!
# The declarations of a file as schemas

Every named type of a file has a definition in its document, and so has every model group that
several places of the batch refer to; global elements are properties. A declaration that cannot be
converted is left out and its problem reported, and the others are converted all the same. Each
declaration is converted on its own: what one is inside of does not carry over to the next.
-/

namespace Crosswalk

/-- The schemas of the declarations of a file. -/
structure Converted where
  /-- Those of named types and of model groups, by key. -/
  definitions : Table String Json := []
  /-- Those of global elements. -/
  elements : List (String × Json) := []
  /-- The named types. -/
  types : List String := []

namespace Conversion

/-- The definition of a named type. -/
def typeDefinition (context : Context) (type : NamedType) : Conversion (String × Json) := do
  let name := type.name.name
  let schema ← match type.definition with
    | .simple simple =>
      visiting .simple context.file type.name (simpleSchema context context.file name true simple)
    | .complex complex =>
      visiting .complex context.file type.name do
        let site : Site := ⟨context.file, "complexType " ++ name⟩
        let shape ← collectComplex context (allExpansions context) site .everything {} complex
        return objectSchema context shape
  return (name, withKeywords schema (descriptionOf type.documentation))

/-- The definition of a model group. It admits further members: the types that refer to the group
list its members themselves, and decide about others. -/
def groupDefinition (context : Context) (group : NamedGroup) : Conversion (String × Json) := do
  let site : Site := ⟨context.file, "group " ++ group.name.name⟩
  let shape ← visiting .group context.file group.name
    (collectGroup context (allExpansions context) site .once true {} group.group)
  return (groupKey group.name.name,
    withKeywords (shape.schema false context.options.textProperty)
      (descriptionOf group.documentation))

/-- The property of a global element. -/
def elementProperty (context : Context) (element : Element) : Conversion (String × Json) := do
  let name := element.name.name
  let site : Site := ⟨context.file, "element " ++ name⟩
  let schema ← elementSchema context (allExpansions context) site element
  return (name, schema)

/-- What became of some declarations. -/
structure Outcome where
  schemas : List (String × Json)
  errors : List Problem
  diagnostics : List Problem

/-- Converts declarations in turn, each from the outside. -/
def convertEach {α : Type} (convert : α → Conversion (String × Json)) :
    List α → List Problem → Outcome
  | [], diagnostics => ⟨[], [], diagnostics⟩
  | a :: rest, diagnostics =>
    let (result, after) := convert a { diagnostics }
    let outcome := convertEach convert rest after.diagnostics
    match result with
    | .ok schema => { outcome with schemas := schema :: outcome.schemas }
    | .error problem => { outcome with errors := problem :: outcome.errors }

/-- Converts the declarations of the file of a context: its problems are those of the declarations
left out, and behind them the diagnostics. -/
def convertFile (context : Context) : Converted × List Problem :=
  let schema := context.file.schema
  let types := convertEach (typeDefinition context) schema.types []
  let reused := schema.groups.filter fun g => context.linkage.isReused g.name
  let groups := convertEach (groupDefinition context) reused types.diagnostics
  let elements := convertEach (elementProperty context) schema.elements groups.diagnostics
  ({ definitions := Table.ofList (types.schemas ++ groups.schemas)
     elements := elements.schemas
     types := types.schemas.map (·.1) },
    types.errors ++ groups.errors ++ elements.errors ++ elements.diagnostics)

end Conversion

end Crosswalk
