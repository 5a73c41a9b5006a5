import Crosswalk.Conversion.Basic
import Crosswalk.Facet.Effective

/-!
# Simple types as schemas

A chain of restrictions is walked from the derived type to its built-in datatype and flattened, so
that a schema carries every inherited constraint itself. Lists become arrays and unions become
alternatives. What is noteworthy about a facet is noted where the facet is stated: the base of a
restriction is expanded in silence, for it is noted when its own definition is converted.
-/

namespace Crosswalk

/-- The flattened form of a simple type. -/
inductive SimpleShape where
  | atomic (datatype : Datatype) (facets : FacetSet)
  /-- The schema of the items, and the length facets of the list itself. -/
  | list (item : Json) (facets : FacetSet)
  | union (members : List Json)

namespace SimpleShape

/-- The schema of the type. -/
def schema : SimpleShape → Json
  | atomic datatype facets => .object (facets.keywords datatype)
  | list item facets =>
    let array := Table.ofList [("type", Json.string "array"), ("items", item)]
    let array := Datatype.withKeyword array "minItems" (facets.minLength.map .nat)
    .object (Datatype.withKeyword array "maxItems" (facets.maxLength.map .nat))
  | union members => .object [("anyOf", .array members)]

/-- The space of the type's values. Lists and unions are written as text. -/
def space : SimpleShape → ValueSpace
  | atomic datatype _ => datatype.space
  | list _ _ => .text
  | union _ => .text

/-- Whether a facet limits lengths. -/
def isLength (f : Facet) : Bool :=
  f.kind == .length || f.kind == .minLength || f.kind == .maxLength

/-- The issues of facets without counterpart. -/
def inapplicable (facets : List Facet) : List FacetIssue :=
  (facets.filter fun f => f.kind != .whiteSpace).map fun f => .notApplicable f.kind

/-- Applies the facets of a restriction. A list has length facets only, and a union has none. -/
def restrict (shape : SimpleShape) (facets : List Facet) : SimpleShape × List FacetIssue :=
  match shape with
  | atomic datatype inherited =>
    let (narrowed, issues) := inherited.apply facets datatype.space
    (atomic datatype narrowed, issues)
  | list item inherited =>
    let (narrowed, issues) := inherited.apply (facets.filter isLength) .text
    (list item narrowed, issues ++ inapplicable (facets.filter fun f => !isLength f))
  | union members => (union members, inapplicable facets)

end SimpleShape

namespace Conversion

/-- The construct that an issue is noted as. -/
def issueText : FacetIssue → String
  | .widening facet _ _ => "facet " ++ facet.name
  | .notApplicable facet =>
    "facet " ++ facet.name ++ " has no JSON Schema mapping for this type; ignored"
  | .invalid facet value => "invalid " ++ facet.name ++ " value '" ++ value ++ "'; ignored"
  | .unenforced facet detail => "facet " ++ facet.name ++ ": " ++ detail
  | .untranslatable value refusal =>
    "pattern '" ++ value ++ "' uses " ++ refusal.text ++ "; ignored"

/-- Where the problems of a simple type are. -/
def simpleLocation (typeName : String) : String := "simpleType " ++ typeName

/-- Notes an issue of a facet that `scope` states. -/
def recordIssue (context : Context) (scope : File) (typeName : String) (issue : FacetIssue) :
    Conversion Unit :=
  match issue with
  | .widening facet baseValue value =>
    if isOwn context scope then
      record (.widening scope.filename typeName facet.name baseValue value)
    else pure ()
  | issue => diagnose context scope (simpleLocation typeName) (issueText issue)

/-- Notes issues in turn. -/
def recordIssues (context : Context) (scope : File) (typeName : String) :
    List FacetIssue → Conversion Unit
  | [] => pure ()
  | issue :: rest => do
    recordIssue context scope typeName issue
    recordIssues context scope typeName rest

/-- The schema of a type referred to by name: that of a type of XML Schema itself, or a reference
to the definition. -/
def typeReference (context : Context) (scope : File) (name : QName) (referencing : String) :
    Conversion Json :=
  if name.isBuiltin then found scope referencing name (Datatype.schemaOf? name.name)
  else do
    let located ← found scope referencing name (context.linkage.type? scope name)
    return linkTo context located.file "definitions" located.declaration.name.name

/-- The shape of a type of XML Schema itself. The type of anything at all restricts like that of
any simple value. -/
def builtinShape (scope : File) (typeName : String) (name : QName) : Conversion SimpleShape := do
  let datatype ← found scope (simpleLocation typeName) name
    (Datatype.find? (if name.name = "anyType" then "anySimpleType" else name.name))
  return .atomic datatype (.ofDatatype datatype)

/-- How the definition of a named simple type is flattened. -/
abbrev SimpleExpansion := Located NamedType → SimpleType → Conversion SimpleShape

/-- The shape of a base given by name. -/
def namedBase (context : Context) (expand : SimpleExpansion) (scope : File) (typeName : String)
    (name : QName) : Conversion SimpleShape :=
  if name.isBuiltin then builtinShape scope typeName name
  else do
    let located ← found scope (simpleLocation typeName) name (context.linkage.type? scope name)
    match located.declaration.definition with
    | .simple type => visiting .simple scope located.declaration.name (expand located type)
    | .complex _ => do
      diagnose context scope (simpleLocation typeName)
        ("simple type restricting complex type " ++ located.declaration.name.text)
      builtinShape scope typeName (.xsd "anySimpleType")

mutual

/-- The shape of a simple type that `scope` defines. Issues are noted if `report` says so. -/
def shapeWith (context : Context) (expand : SimpleExpansion) (scope : File) (typeName : String)
    (report : Bool) : SimpleType → Conversion SimpleShape
  | .restriction base facets => do
    let inherited ← baseShape context expand scope typeName report base
    let (shape, issues) := inherited.restrict facets
    if report then recordIssues context scope typeName issues
    return shape
  | .list item => do
    let schema ← baseSchemaWith context expand scope typeName report item
    return .list schema {}
  | .union members => do
    let schemas ← memberSchemas context expand scope typeName report members
    return .union schemas

/-- The shape that a restriction starts from. -/
def baseShape (context : Context) (expand : SimpleExpansion) (scope : File) (typeName : String)
    (report : Bool) : SimpleBase → Conversion SimpleShape
  | .inline type => shapeWith context expand scope typeName report type
  | .named name => namedBase context expand scope typeName name

/-- The schema of an item or member: a reference for a named type, in place for one inside. -/
def baseSchemaWith (context : Context) (expand : SimpleExpansion) (scope : File)
    (typeName : String) (report : Bool) : SimpleBase → Conversion Json
  | .named name => typeReference context scope name (simpleLocation typeName)
  | .inline type => do
    let shape ← shapeWith context expand scope typeName report type
    return shape.schema

/-- The schemas of the members of a union. -/
def memberSchemas (context : Context) (expand : SimpleExpansion) (scope : File)
    (typeName : String) (report : Bool) : List SimpleBase → Conversion (List Json)
  | [] => pure []
  | m :: rest => do
    let schema ← baseSchemaWith context expand scope typeName report m
    let more ← memberSchemas context expand scope typeName report rest
    return schema :: more

end

/-- Flattens named simple types that lie at most so deep inside each other. -/
def expandSimple (context : Context) : Nat → SimpleExpansion
  | 0, located, _ => throw (.cycle located.file.filename located.declaration.name)
  | depth + 1, located, type =>
    shapeWith context (expandSimple context depth) located.file located.declaration.name.name false
      type

/-- How deep named simple types can lie inside each other: every one at most once. -/
def simpleDepth (context : Context) : Nat := context.linkage.declarations.types.length + 1

/-- The shape of a simple type that `scope` defines. -/
def simpleShape (context : Context) (scope : File) (typeName : String) (report : Bool)
    (type : SimpleType) : Conversion SimpleShape :=
  shapeWith context (expandSimple context (simpleDepth context)) scope typeName report type

/-- The schema of a simple type that `scope` defines. -/
def simpleSchema (context : Context) (scope : File) (typeName : String) (report : Bool)
    (type : SimpleType) : Conversion Json := do
  let shape ← simpleShape context scope typeName report type
  return shape.schema

/-- The schema of the type of an attribute. -/
def baseSchema (context : Context) (scope : File) (typeName : String) (base : SimpleBase) :
    Conversion Json :=
  match base with
  | .named name => typeReference context scope name (simpleLocation typeName)
  | .inline type => simpleSchema context scope typeName true type

/-- The value space of a simple type, if it can be flattened. A problem on the way is not one of
the declaration that asks. -/
def spaceOf? (context : Context) (scope : File) (type : SimpleType) :
    Conversion (Option ValueSpace) :=
  tryCatch (do
    let shape ← simpleShape context scope "" false type
    return some shape.space) fun _ => pure none

/-- The value space of a type given by name, if it is simple. -/
def namedSpace? (context : Context) (scope : File) (name : QName) :
    Conversion (Option ValueSpace) :=
  if name.isBuiltin then pure ((Datatype.find? name.name).map Datatype.space)
  else match context.linkage.type? scope name with
    | none => pure none
    | some located =>
      match located.declaration.definition with
      | .simple type => spaceOf? context located.file type
      | .complex _ => pure none

/-- The value space in which the literals of an element are read; complex content has none. -/
def literalSpace? (context : Context) (scope : File) (type : ElementType) :
    Conversion (Option ValueSpace) :=
  match type with
  | .named name => namedSpace? context scope name
  | .simple type => spaceOf? context scope type
  | .complex _ => pure none
  | .any => pure none

end Conversion

end Crosswalk
