import Crosswalk.Conversion.Attributes

/-!
# Complex types as shapes

A content model is walked once. The occurrence bounds of the particles around an element multiply
into those of its slot, so that sequences and all-groups flatten into one set of members whose
order is not kept. A choice becomes a constraint on the members of its branches, or, if it can
occur several times, no constraint at all. A model group that several places refer to is referred
to here as well if it occurs exactly once and outside of a choice; otherwise it is expanded.

The walk descends into what a declaration holds itself. Bases and model groups lie elsewhere: they
are expanded by `Expansions`, which nest at most as deep as there are types and groups, for none is
expanded within itself.
-/

namespace Crosswalk

namespace Conversion

/-- What a derived type takes over from its base. -/
inductive Inheritance where
  /-- Content and attributes, by extension. -/
  | everything
  /-- The attributes only, for a restriction states its content itself. -/
  | attributes
  deriving DecidableEq

/-- How bases and model groups are added to a shape. -/
structure Expansions where
  base : Site → Inheritance → Located NamedType → ComplexType → Shape → Conversion Shape
  /-- A group with these bounds, inside of a choice or not. -/
  group : Site → Located NamedGroup → Bounds → Bool → Shape → Conversion Shape

/-- Adds an element. That it has a name in common with another member is noted. -/
def addElement (context : Context) (site : Site) (name : String) (slot : Slot) (shape : Shape) :
    Conversion Shape := do
  let (shape, joined) := shape.addElement Slot.andThen name slot
  let construct? := match joined with
    | .added => none
    | .merged => some " occurs more than once in the content model; occurrences merged"
    | .dropped => some " has the same name as an attribute; element dropped"
  if let some construct := construct? then
    site.diagnose context ("element " ++ name ++ construct)
  return shape

/-! ### Choices -/

/-- Adds the members of a branch, none of which is required. One that the shape had before the
choice occurs again; one of another branch occurs instead. -/
def joinMembers (context : Context) (site : Site) (outside : List String) (shape : Shape) :
    List (String × Slot) → Conversion Shape
  | [] => pure shape
  | (name, slot) :: rest => do
    let shape ← if outside.contains name then
        addElement context site name (.ofElement slot.item slot.bounds.orNone) shape
      else pure (shape.addElement Slot.orElse name { slot with required := false }).1
    joinMembers context site outside shape rest

/-- Adds the members of the branches in turn. -/
def joinBranches (context : Context) (site : Site) (outside : List String) (shape : Shape) :
    List Shape → Conversion Shape
  | [] => pure shape
  | branch :: rest => do
    let opened := { shape with isOpen := shape.isOpen || branch.isOpen }
    let shape ← joinMembers context site outside opened branch.slots
    joinBranches context site outside shape rest

/-- Adds a choice of these branches, which has to be made if `obliged`. -/
def addChoice (context : Context) (site : Site) (obliged : Bool) (branches : List Shape)
    (shape : Shape) : Conversion Shape := do
  if Shape.overlap branches then
    site.diagnose context "choice branches share member names; branches not mutually exclusive"
  let shape ← joinBranches context site shape.names shape branches
  return { shape with choices := shape.choices ++ (Shape.choice? branches obliged).toList }

/-! ### Bases -/

/-- Adds what complex content takes over from its base. -/
def collectBase (context : Context) (expand : Expansions) (site : Site)
    (inheritance : Inheritance) (base : QName) (shape : Shape) : Conversion Shape :=
  if base.isBuiltin then
    if base.name = "anyType" then pure shape
    else do
      site.diagnose context ("complex content derived from " ++ base.text)
      return shape
  else do
    let located ← found site.scope site.location base (context.linkage.type? site.scope base)
    match located.declaration.definition with
    | .complex type =>
      visiting .complex site.scope located.declaration.name
        (expand.base site inheritance located type shape)
    | .simple _ => do
      site.diagnose context
        ("complex content derived from simple type " ++ located.declaration.name.text)
      return shape

/-- The simple type or datatype at the end of a chain of types with simple content, if it is
reached within so many steps. -/
def textRoot? (context : Context) : Nat → File → QName → Option (File × QName)
  | 0, _, _ => none
  | steps + 1, scope, name =>
    if name.isBuiltin then some (scope, name)
    else match context.linkage.type? scope name with
      | none => none
      | some located =>
        match located.declaration.definition with
        | .simple _ => some (located.file, located.declaration.name)
        | .complex type =>
          match type.content with
          | .simple base _ _ => textRoot? context steps located.file base
          | _ => none

/-- How many types a chain can have. -/
def chainLength (context : Context) : Nat := context.linkage.declarations.types.length + 1

/-- The name that facets of simple content are noted under: what stands last in the location. -/
def textTypeName (location : String) : String :=
  String.ofList (Text.lastPiece (· == ' ') location.toList)

/-- The character data of simple content whose base is complex: the schema of the base, narrowed by
the facets of a restriction. -/
def narrowText (context : Context) (site : Site) (located : Located NamedType)
    (facets : List Facet) (shape : Shape) : Conversion Shape :=
  match textRoot? context (chainLength context) located.file located.declaration.name with
  | some (scope, root) => do
    let narrowed ← simpleSchema context scope (textTypeName site.location) false
      (.restriction (.named root) facets)
    return { shape with text := some (match shape.text with
      | some inherited => .object [("allOf", .array [inherited, narrowed])]
      | none => narrowed) }
  | none => do
    site.diagnose context
      ("facets restricting " ++ located.declaration.name.text ++ ", which has no simple content")
    return shape

/-- The character data of simple content whose base is simple. -/
def textSchema (context : Context) (site : Site) (base : QName) (facets : List Facet) :
    Conversion Json :=
  if facets.isEmpty then typeReference context site.scope base site.location
  else simpleSchema context site.scope (textTypeName site.location) true
    (.restriction (.named base) facets)

/-- The type that a base is, if it is complex. -/
def complexBase? (context : Context) (site : Site) (base : QName) :
    Conversion (Option (Located NamedType × ComplexType)) :=
  if base.isBuiltin then pure none
  else do
    let located ← found site.scope site.location base (context.linkage.type? site.scope base)
    match located.declaration.definition with
    | .complex type => return some (located, type)
    | .simple _ => return none

/-- Adds simple content: its character data becomes the text of the shape. Only a restriction has
facets of its own. -/
def collectText (context : Context) (expand : Expansions) (site : Site) (base : QName)
    (derivation : Derivation) (facets : List Facet) (shape : Shape) : Conversion Shape := do
  let facets := if derivation = .restriction then facets else []
  match ← complexBase? context site base with
  | none =>
    let text ← textSchema context site base facets
    return { shape with text := some text }
  | some (located, type) =>
    let shape ← visiting .complex site.scope located.declaration.name
      (expand.base site .everything located type shape)
    if facets.isEmpty then return shape
    else narrowText context site located facets shape

/-! ### Content models -/

/-- The key of the definition of a model group. -/
def groupKey (name : String) : String := "group." ++ name

/-- Adds what a reference to a model group stands for. -/
def collectGroupRef (context : Context) (expand : Expansions) (site : Site) (reference : QName)
    (bounds : Bounds) (nested : Bool) (shape : Shape) : Conversion Shape := do
  let located ← found site.scope site.location reference
    (context.linkage.group? site.scope reference)
  let name := located.declaration.name
  visiting .group site.scope name
    (if !nested && bounds = .once && context.linkage.isReused name then do
      let members ← expand.group site located .once true {}
      return shape.addReference members
        (linkTo context located.file "definitions" (groupKey name.name))
    else expand.group site located bounds nested shape)

/-- Adds the element that a reference stands for. It is described among the properties of the
document of its file. -/
def collectElementRef (context : Context) (site : Site) (reference : QName) (bounds : Bounds)
    (shape : Shape) : Conversion Shape := do
  let located ← found site.scope site.location reference
    (context.linkage.element? site.scope reference)
  let declaration := located.declaration
  let name := propertyName context located.file declaration.name declaration.qualified
  let item := linkTo context located.file "properties" declaration.name.name
  addElement context site name (.ofElement item bounds) shape

/-- The schema of the object that a shape describes. -/
def objectSchema (context : Context) (shape : Shape) : Json :=
  shape.schema context.options.isClosed context.options.textProperty

/-- The keywords of an element beside its type: documentation, and literals in the space of its
type. -/
def elementKeywords (context : Context) (site : Site) (type : ElementType)
    (default fixed documentation : Option String) : Conversion (List (String × Json)) :=
  if default.isNone && fixed.isNone then pure (descriptionOf documentation)
  else do
    match ← literalSpace? context site.scope type with
    | some space =>
      return descriptionOf documentation ++
        (fixed.toList.map fun text => ("const", space.literal text)) ++
        (default.toList.map fun text => ("default", space.literal text))
    | none =>
      site.diagnose context "fixed or default value on an element with complex content"
      return descriptionOf documentation

/-- A schema that admits the absence of a value as well. -/
def orNull (schema : Json) : Json :=
  .object [("anyOf", .array [schema, .object [("type", .string "null")]])]

mutual

/-- Adds a complex type. -/
def collectComplex (context : Context) (expand : Expansions) (site : Site)
    (inheritance : Inheritance) (shape : Shape) : ComplexType → Conversion Shape
  | ⟨content, attributes, anyAttribute, mixed⟩ => do
    if mixed && inheritance = .everything then
      site.diagnose context "mixed content; character data ignored"
    let shape ← collectContent context expand site inheritance shape content
    let shape ← collectAttributes context site attributes shape
    return if anyAttribute then { shape with isOpen := true } else shape

/-- Adds content. What a type states itself is left out if its attributes only are asked for. -/
def collectContent (context : Context) (expand : Expansions) (site : Site)
    (inheritance : Inheritance) (shape : Shape) : Content → Conversion Shape
  | .empty => pure shape
  | .particle p =>
    if inheritance = .everything then collectParticle context expand site .once false shape p
    else pure shape
  | .extension base none => collectBase context expand site inheritance base shape
  | .extension base (some p) => do
    let shape ← collectBase context expand site inheritance base shape
    if inheritance = .everything then collectParticle context expand site .once false shape p
    else pure shape
  | .restriction base none => collectBase context expand site .attributes base shape
  | .restriction base (some p) => do
    let shape ← collectBase context expand site .attributes base shape
    if inheritance = .everything then collectParticle context expand site .once false shape p
    else pure shape
  | .simple base derivation facets =>
    collectText context expand site base derivation facets shape

/-- Adds a particle inside of something with bounds of its own. One that cannot occur adds
nothing. -/
def collectParticle (context : Context) (expand : Expansions) (site : Site) (outer : Bounds)
    (nested : Bool) (shape : Shape) : Particle → Conversion Shape
  | ⟨least, most, term⟩ =>
    let bounds := Bounds.times ⟨least, most⟩ outer
    if bounds.most = .zero then pure shape
    else collectTerm context expand site bounds nested shape term

/-- Adds a term that occurs so often. -/
def collectTerm (context : Context) (expand : Expansions) (site : Site) (bounds : Bounds)
    (nested : Bool) (shape : Shape) : Term → Conversion Shape
  | .element declaration => do
    let location := site.location ++ "/element " ++ declaration.name.name
    let item ← elementSchema context expand { site with location } declaration
    let name := propertyName context site.scope declaration.name declaration.qualified
    addElement context site name (.ofElement item bounds) shape
  | .elementRef reference => collectElementRef context site reference bounds shape
  | .group group => collectGroup context expand site bounds nested shape group
  | .groupRef reference => collectGroupRef context expand site reference bounds nested shape
  | .any => pure { shape with isOpen := true }

/-- Adds a model group. -/
def collectGroup (context : Context) (expand : Expansions) (site : Site) (bounds : Bounds)
    (nested : Bool) (shape : Shape) : ModelGroup → Conversion Shape
  | ⟨.choice, particles⟩ =>
    if bounds.most.isRepeated then do
      site.diagnose context "repeating choice; members accepted in any combination"
      collectParticles context expand site bounds.orNone nested shape particles
    else do
      let branches ← collectBranches context expand site { bounds with least := .one } particles
      addChoice context site bounds.isRequired branches shape
  | ⟨_, particles⟩ => collectParticles context expand site bounds nested shape particles

/-- Adds particles in turn. -/
def collectParticles (context : Context) (expand : Expansions) (site : Site) (outer : Bounds)
    (nested : Bool) (shape : Shape) : List Particle → Conversion Shape
  | [] => pure shape
  | p :: rest => do
    let shape ← collectParticle context expand site outer nested shape p
    collectParticles context expand site outer nested shape rest

/-- The shapes of the branches of a choice. -/
def collectBranches (context : Context) (expand : Expansions) (site : Site) (outer : Bounds) :
    List Particle → Conversion (List Shape)
  | [] => pure []
  | p :: rest => do
    let branch ← collectParticle context expand site outer true {} p
    let branches ← collectBranches context expand site outer rest
    return branch :: branches

/-- The schema of an element: that of its type, with its literals and documentation. -/
def elementSchema (context : Context) (expand : Expansions) (site : Site) :
    Element → Conversion Json
  | ⟨name, _, type, nillable, default, fixed, documentation⟩ => do
    let base ← elementTypeSchema context expand site name.name type
    let extras ← elementKeywords context site type default fixed documentation
    let schema := withKeywords base extras
    return if nillable then orNull schema else schema

/-- The schema of the type of an element. -/
def elementTypeSchema (context : Context) (expand : Expansions) (site : Site)
    (elementName : String) : ElementType → Conversion Json
  | .named name => typeReference context site.scope name site.location
  | .simple type => simpleSchema context site.scope elementName true type
  | .complex type => do
    let shape ← collectComplex context expand site .everything {} type
    return objectSchema context shape
  | .any => pure (.object [])

end

/-- Expands bases and groups that lie at most so deep inside each other. -/
def expansions (context : Context) : Nat → Expansions
  | 0 =>
    { base := fun site _ located _ _ => throw (.cycle site.scope.filename located.declaration.name)
      group := fun site located _ _ _ =>
        throw (.cycle site.scope.filename located.declaration.name) }
  | depth + 1 =>
    { base := fun site inheritance located type shape =>
        collectComplex context (expansions context depth) { site with scope := located.file }
          inheritance shape type
      group := fun site located bounds nested shape =>
        collectGroup context (expansions context depth) { site with scope := located.file } bounds
          nested shape located.declaration.group }

/-- How deep bases and groups can lie inside each other: every one at most once. -/
def expansionDepth (context : Context) : Nat :=
  context.linkage.declarations.types.length + context.linkage.declarations.groups.length + 1

/-- The expansions of a batch. -/
def allExpansions (context : Context) : Expansions := expansions context (expansionDepth context)

end Conversion

end Crosswalk
