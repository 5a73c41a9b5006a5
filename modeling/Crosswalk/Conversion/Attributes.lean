import Crosswalk.Conversion.Shape
import Crosswalk.Conversion.Simple

/-!
# Attributes as properties

The attribute uses of a type are taken in order, with attribute groups expanded in place: an
optional or required attribute adds its property or replaces an earlier one, and a prohibited one
takes it away. No group is expanded within itself, so that the number of groups bounds how deep
expansions lie inside each other.
-/

namespace Crosswalk

namespace Conversion

/-- The schema of an attribute that `scope` declares. The literals given where it is used come
before its own. -/
def attributeSchema (context : Context) (scope : File) (declaration : Attribute)
    (default fixed : Option String) : Conversion Json := do
  let base ← match declaration.type with
    | some base => baseSchema context scope declaration.name.name base
    | none => pure ((Datatype.schemaOf? "anySimpleType").getD (.object []))
  let space ← match declaration.type with
    | some (.named name) => namedSpace? context scope name
    | some (.inline type) => spaceOf? context scope type
    | none => pure (some .anySimple)
  let literal := fun text => (space.getD .text).literal text
  return withKeywords base (descriptionOf declaration.documentation ++
    ((fixed.or declaration.fixed).toList.map fun text => ("const", literal text)) ++
    ((default.or declaration.default).toList.map fun text => ("default", literal text)))

/-- Adds the property of an attribute, unless an element has its name. -/
def addAttribute (context : Context) (site : Site) (name : String) (slot : Slot) (shape : Shape) :
    Conversion Shape :=
  match shape.addAttribute? name slot with
  | some shape => pure shape
  | none => do
    site.diagnose context
      ("attribute " ++ name ++ " has the same name as an element; attribute dropped")
    return shape

/-- How the attributes of a group are added. -/
abbrev AttributeExpansion := Site → Located AttributeGroup → Shape → Conversion Shape

/-- Takes one attribute use. -/
def collectUse (context : Context) (expand : AttributeExpansion) (site : Site) (shape : Shape) :
    AttributeUse → Conversion Shape
  | .declared declaration use => do
    let name := propertyName context site.scope declaration.name declaration.qualified
    if use = .prohibited then pure (shape.removeAttribute name)
    else do
      let item ← attributeSchema context site.scope declaration none none
      addAttribute context site name (.ofAttribute item (use == .required)) shape
  | .reference reference use default fixed => do
    let located ← found site.scope site.location reference
      (context.linkage.attribute? site.scope reference)
    let declaration := located.declaration
    let name := propertyName context located.file declaration.name declaration.qualified
    if use = .prohibited then pure (shape.removeAttribute name)
    else do
      let item ← attributeSchema context located.file declaration default fixed
      addAttribute context site name (.ofAttribute item (use == .required)) shape
  | .group reference => do
    let located ← found site.scope site.location reference
      (context.linkage.attributeGroup? site.scope reference)
    let shape ← visiting .attributeGroup site.scope located.declaration.name
      (expand { site with scope := located.file } located shape)
    return if located.declaration.anyAttribute then { shape with isOpen := true } else shape

/-- Takes attribute uses in turn. -/
def collectUses (context : Context) (expand : AttributeExpansion) (site : Site) (shape : Shape) :
    List AttributeUse → Conversion Shape
  | [] => pure shape
  | use :: rest => do
    let shape ← collectUse context expand site shape use
    collectUses context expand site shape rest

/-- Expands attribute groups that lie at most so deep inside each other. -/
def expandAttributes (context : Context) : Nat → AttributeExpansion
  | 0, site, located, _ => throw (.cycle site.scope.filename located.declaration.name)
  | depth + 1, site, located, shape =>
    collectUses context (expandAttributes context depth) site shape located.declaration.attributes

/-- How deep attribute groups can lie inside each other: every one at most once. -/
def attributeDepth (context : Context) : Nat :=
  context.linkage.declarations.attributeGroups.length + 1

/-- Takes the attribute uses of a type. -/
def collectAttributes (context : Context) (site : Site) (uses : List AttributeUse)
    (shape : Shape) : Conversion Shape :=
  collectUses context (expandAttributes context (attributeDepth context)) site shape uses

end Conversion

end Crosswalk
