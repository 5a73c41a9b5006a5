import Crosswalk.Facet.Basic
import Crosswalk.Occurs
import Crosswalk.QName

/-!
# Schema components

What a schema document declares. A declaration refers to another one by its qualified name and
never holds it, for declarations may refer to each other in circles and across documents. What a
component holds inside itself is anonymous: local elements with their types, nested model groups
and nested simple types.
-/

namespace Crosswalk

/-- Whether local names carry the target namespace. -/
inductive Form where
  | qualified
  | unqualified
  deriving DecidableEq, Repr

/-- The form that an attribute value states; any other text leaves the default. -/
def Form.ofText (text : Option String) (default : Form) : Form :=
  if text = some "qualified" then .qualified
  else if text = some "unqualified" then .unqualified
  else default

/-- How a document depends on a namespace. -/
inductive ImportKind where
  /-- On the declarations of a namespace. -/
  | imported
  /-- On further declarations of its own namespace. -/
  | included
  deriving DecidableEq, Repr

/-- A dependency of a document. The location is a hint; the namespace decides. -/
structure Import where
  kind : ImportKind
  space : String
  location : Option String
  deriving DecidableEq, Repr

mutual

/-- A simple type. -/
inductive SimpleType where
  | restriction (base : SimpleBase) (facets : List Facet)
  /-- Values of the item type, separated by blanks. -/
  | list (item : SimpleBase)
  /-- A value of any of the members. -/
  | union (members : List SimpleBase)

/-- A simple type that another one is built from. -/
inductive SimpleBase where
  | named (name : QName)
  | inline (type : SimpleType)

end

/-- How a type derives from its base. -/
inductive Derivation where
  | extension
  | restriction
  deriving DecidableEq, Repr

/-- The use of an attribute. -/
inductive Use where
  | optional
  | required
  | prohibited
  deriving DecidableEq, Repr

/-- An attribute declaration. Without a type it takes any simple value. -/
structure Attribute where
  name : QName
  /-- Whether the name is qualified in instances. -/
  qualified : Bool
  type : Option SimpleBase
  default : Option String
  fixed : Option String
  documentation : Option String

/-- What a type or an attribute group says about attributes. -/
inductive AttributeUse where
  | declared (declaration : Attribute) (use : Use)
  /-- A global attribute, whose literals may be overridden. -/
  | reference (name : QName) (use : Use) (default fixed : Option String)
  | group (name : QName)

/-- How the members of a model group combine. -/
inductive Compositor where
  | sequence
  | choice
  | all
  deriving DecidableEq, Repr

mutual

/-- An element declaration. -/
structure Element where
  name : QName
  /-- Whether the name is qualified in instances. -/
  qualified : Bool
  type : ElementType
  nillable : Bool
  default : Option String
  fixed : Option String
  documentation : Option String

/-- The type of an element. -/
inductive ElementType where
  | named (name : QName)
  | simple (type : SimpleType)
  | complex (type : ComplexType)
  /-- Anything at all. -/
  | any

/-- A complex type. -/
structure ComplexType where
  content : Content
  attributes : List AttributeUse
  /-- Whether attributes that it does not list are admitted. -/
  anyAttribute : Bool
  /-- Whether character data may stand between its children. -/
  mixed : Bool

/-- The content of a complex type. -/
inductive Content where
  | empty
  | particle (particle : Particle)
  /-- The content of the base, followed by the particle. -/
  | extension (base : QName) (particle : Option Particle)
  /-- The particle in place of the content of the base. -/
  | restriction (base : QName) (particle : Option Particle)
  /-- Character data. -/
  | simple (base : QName) (derivation : Derivation) (facets : List Facet)

/-- A term with its occurrence bounds. -/
structure Particle where
  least : Count
  most : Limit
  term : Term

/-- What a particle admits. -/
inductive Term where
  | element (declaration : Element)
  | elementRef (name : QName)
  | group (group : ModelGroup)
  | groupRef (name : QName)
  /-- Any element. -/
  | any

/-- Particles combined. -/
structure ModelGroup where
  compositor : Compositor
  particles : List Particle

end

/-- The base that content derives from. -/
def Content.base? : Content → Option QName
  | .empty => none
  | .particle _ => none
  | .extension base _ => some base
  | .restriction base _ => some base
  | .simple base _ _ => some base

/-- A type, simple or complex. -/
inductive TypeDefinition where
  | simple (type : SimpleType)
  | complex (type : ComplexType)

/-- The named type that a definition derives from. -/
def TypeDefinition.base? : TypeDefinition → Option QName
  | .simple (.restriction (.named base) _) => some base
  | .simple _ => none
  | .complex type => type.content.base?

/-- A named type. -/
structure NamedType where
  name : QName
  definition : TypeDefinition
  documentation : Option String

/-- A named model group. -/
structure NamedGroup where
  name : QName
  group : ModelGroup
  documentation : Option String

/-- A named group of attributes. -/
structure AttributeGroup where
  name : QName
  attributes : List AttributeUse
  anyAttribute : Bool

/-- A schema document. -/
structure Schema where
  /-- The namespace of its declarations, empty for none. -/
  targetSpace : String
  elementForm : Form
  attributeForm : Form
  /-- The prefixes bound at its root, in order; the default namespace has the empty one. -/
  prefixes : List (String × String)
  imports : List Import
  documentation : Option String
  types : List NamedType
  elements : List Element
  groups : List NamedGroup
  attributes : List Attribute
  attributeGroups : List AttributeGroup

namespace Schema

/-- The first prefix other than the empty one that is bound to a namespace. -/
def prefixFor? (schema : Schema) (space : String) : Option String :=
  (schema.prefixes.find? fun (p, uri) => p != "" && uri == space).map (·.1)

/-- The namespaces that the document depends on, each at its first mention. -/
def importedSpaces (schema : Schema) : List String :=
  schema.imports.foldl (fun spaces i =>
    let space := match i.kind with
      | .imported => i.space
      | .included => schema.targetSpace
    if spaces.contains space then spaces else spaces ++ [space]) []

end Schema

end Crosswalk
