import Crosswalk.Problem
import Crosswalk.Schema.Component

/-!
# References between declarations

Every name that a schema mentions in place of a declaration, at any depth, with the kind of
declaration it stands for and the place of the mention. The references of a document are in
document order within each kind of top-level declaration.
-/

namespace Crosswalk

/-- A mention of a declaration by name. -/
structure Reference where
  kind : DeclarationKind
  name : QName
  /-- Where the mention is. -/
  location : String
  deriving DecidableEq, Repr

mutual

/-- The references of a simple type. -/
def SimpleType.references (location : String) : SimpleType → List Reference
  | .restriction base _ => base.references location
  | .list item => item.references location
  | .union members => basesReferences location members

/-- The reference of a base by name, or those of one inside. -/
def SimpleBase.references (location : String) : SimpleBase → List Reference
  | .named name => [⟨.type, name, location⟩]
  | .inline type => type.references location

/-- The references of some bases. -/
def basesReferences (location : String) : List SimpleBase → List Reference
  | [] => []
  | b :: rest => b.references location ++ basesReferences location rest

end

/-- The references of an attribute declaration. -/
def Attribute.references (location : String) (a : Attribute) : List Reference :=
  match a.type with
  | some base => base.references location
  | none => []

/-- The references of an attribute use. -/
def AttributeUse.references (location : String) : AttributeUse → List Reference
  | .declared a _ => a.references (location ++ "/@" ++ a.name.name)
  | .reference name _ _ _ => [⟨.attribute, name, location⟩]
  | .group name => [⟨.attributeGroup, name, location⟩]

/-- The references of attribute uses. -/
def usesReferences (location : String) (uses : List AttributeUse) : List Reference :=
  uses.flatMap fun u => u.references location

mutual

/-- The references of an element declaration. -/
def Element.references (location : String) : Element → List Reference
  | ⟨_, _, type, _, _, _, _⟩ => type.references location

/-- The references of an element's type. -/
def ElementType.references (location : String) : ElementType → List Reference
  | .named name => [⟨.type, name, location⟩]
  | .simple type => type.references location
  | .complex type => type.references location
  | .any => []

/-- The references of a complex type: those of its content, then those of its attributes. -/
def ComplexType.references (location : String) : ComplexType → List Reference
  | ⟨content, attributes, _, _⟩ => content.references location ++ usesReferences location attributes

/-- The references of content, its base before its particle. -/
def Content.references (location : String) : Content → List Reference
  | .empty => []
  | .particle p => p.references location
  | .extension base none => [⟨.type, base, location⟩]
  | .extension base (some p) => ⟨.type, base, location⟩ :: p.references location
  | .restriction base none => [⟨.type, base, location⟩]
  | .restriction base (some p) => ⟨.type, base, location⟩ :: p.references location
  | .simple base _ _ => [⟨.type, base, location⟩]

/-- The references of a particle. -/
def Particle.references (location : String) : Particle → List Reference
  | ⟨_, _, term⟩ => term.references location

/-- The references of a term. -/
def Term.references (location : String) : Term → List Reference
  | .element e => e.references (location ++ "/element " ++ e.name.name)
  | .elementRef name => [⟨.element, name, location⟩]
  | .group g => g.references location
  | .groupRef name => [⟨.group, name, location⟩]
  | .any => []

/-- The references of a model group. -/
def ModelGroup.references (location : String) : ModelGroup → List Reference
  | ⟨_, particles⟩ => particlesReferences location particles

/-- The references of some particles. -/
def particlesReferences (location : String) : List Particle → List Reference
  | [] => []
  | p :: rest => p.references location ++ particlesReferences location rest

end

/-- The references of a type. -/
def TypeDefinition.references (location : String) : TypeDefinition → List Reference
  | .simple type => type.references location
  | .complex type => type.references location

/-- The references of a document: those of its types, elements, groups, attributes and attribute
groups in turn. -/
def Schema.references (schema : Schema) : List Reference :=
  (schema.types.flatMap fun t => t.definition.references ("type " ++ t.name.name)) ++
  (schema.elements.flatMap fun e => e.references ("element " ++ e.name.name)) ++
  (schema.groups.flatMap fun g => g.group.references ("group " ++ g.name.name)) ++
  (schema.attributes.flatMap fun a => a.references ("attribute " ++ a.name.name)) ++
  (schema.attributeGroups.flatMap fun g =>
    usesReferences ("attributeGroup " ++ g.name.name) g.attributes)

mutual

/-- The groups that a model group refers to, also from groups nested in it. What its elements refer
to is theirs. -/
def ModelGroup.groupRefs : ModelGroup → List QName
  | ⟨_, particles⟩ => groupRefsOf particles

/-- The groups that some particles refer to. -/
def groupRefsOf : List Particle → List QName
  | [] => []
  | p :: rest => p.groupRefs ++ groupRefsOf rest

/-- The groups that a particle refers to. -/
def Particle.groupRefs : Particle → List QName
  | ⟨_, _, term⟩ => term.groupRefs

/-- The groups that a term refers to. -/
def Term.groupRefs : Term → List QName
  | .element _ => []
  | .elementRef _ => []
  | .group g => g.groupRefs
  | .groupRef name => [name]
  | .any => []

end

end Crosswalk
