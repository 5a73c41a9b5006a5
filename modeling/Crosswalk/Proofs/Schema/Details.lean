import Crosswalk.Schema.Component

/-!
# What declarations hold inside

The details of a declaration are the names that it gives to itself and to what is declared inside
of it, and the unions in it, at whatever depth. What a conversion of the declaration can run into,
apart from what the names in it stand for, is among them.
-/

namespace Crosswalk

/-- A name that is declared, or a union. -/
inductive Detail where
  | name (name : QName)
  | union (members : List SimpleBase)

mutual

/-- The details of a simple type. -/
def SimpleType.details : SimpleType → List Detail
  | .restriction base _ => base.details
  | .list item => item.details
  | .union members => .union members :: basesDetails members

/-- The details of a base that is not referred to by name. -/
def SimpleBase.details : SimpleBase → List Detail
  | .named _ => []
  | .inline type => type.details

/-- The details of some bases. -/
def basesDetails : List SimpleBase → List Detail
  | [] => []
  | b :: rest => b.details ++ basesDetails rest

end

/-- The details of an attribute declaration. -/
def Attribute.details (a : Attribute) : List Detail :=
  .name a.name :: match a.type with
    | some base => base.details
    | none => []

/-- The details of an attribute use. -/
def AttributeUse.details : AttributeUse → List Detail
  | .declared a _ => a.details
  | .reference _ _ _ _ => []
  | .group _ => []

/-- The details of attribute uses. -/
def usesDetails (uses : List AttributeUse) : List Detail := uses.flatMap AttributeUse.details

mutual

/-- The details of an element declaration. -/
def Element.details : Element → List Detail
  | ⟨name, _, type, _, _, _, _⟩ => .name name :: type.details

/-- The details of an element's type. -/
def ElementType.details : ElementType → List Detail
  | .named _ => []
  | .simple type => type.details
  | .complex type => type.details
  | .any => []

/-- The details of a complex type. -/
def ComplexType.details : ComplexType → List Detail
  | ⟨content, attributes, _, _⟩ => content.details ++ usesDetails attributes

/-- The details of content. -/
def Content.details : Content → List Detail
  | .empty => []
  | .particle p => p.details
  | .extension _ none => []
  | .extension _ (some p) => p.details
  | .restriction _ none => []
  | .restriction _ (some p) => p.details
  | .simple _ _ _ => []

/-- The details of a particle. -/
def Particle.details : Particle → List Detail
  | ⟨_, _, term⟩ => term.details

/-- The details of a term. -/
def Term.details : Term → List Detail
  | .element e => e.details
  | .elementRef _ => []
  | .group g => g.details
  | .groupRef _ => []
  | .any => []

/-- The details of a model group. -/
def ModelGroup.details : ModelGroup → List Detail
  | ⟨_, particles⟩ => particlesDetails particles

/-- The details of some particles. -/
def particlesDetails : List Particle → List Detail
  | [] => []
  | p :: rest => p.details ++ particlesDetails rest

end

/-- The details of a type. -/
def TypeDefinition.details : TypeDefinition → List Detail
  | .simple type => type.details
  | .complex type => type.details

/-- The details of a named type. -/
def NamedType.details (type : NamedType) : List Detail :=
  .name type.name :: type.definition.details

/-- The details of a named model group. -/
def NamedGroup.details (group : NamedGroup) : List Detail := .name group.name :: group.group.details

/-- The details of a group of attributes. -/
def AttributeGroup.details (group : AttributeGroup) : List Detail :=
  .name group.name :: usesDetails group.attributes

theorem ComplexType.details_eq (type : ComplexType) :
    type.details = type.content.details ++ usesDetails type.attributes := by
  cases type
  rfl

namespace Schema

/-- The details of the declarations of a schema. -/
def details (schema : Schema) : List Detail :=
  schema.types.flatMap NamedType.details ++ schema.elements.flatMap Element.details ++
    schema.groups.flatMap NamedGroup.details ++ schema.attributes.flatMap Attribute.details ++
    schema.attributeGroups.flatMap AttributeGroup.details

/-- The names that a schema declares, those of local elements and attributes included. -/
def declaredNames (schema : Schema) : List QName :=
  schema.details.filterMap fun
    | .name name => some name
    | .union _ => none

theorem mem_declaredNames {schema : Schema} {name : QName} :
    name ∈ schema.declaredNames ↔ .name name ∈ schema.details := by
  constructor
  · intro h
    obtain ⟨d, hd, hn⟩ := List.mem_filterMap.1 h
    cases d with
    | name other => exact Option.some.inj hn ▸ hd
    | union members => exact nomatch hn
  · exact fun h => List.mem_filterMap.2 ⟨_, h, rfl⟩

variable {schema : Schema}

theorem details_of_type {type : NamedType} (h : type ∈ schema.types) :
    type.details ⊆ schema.details := fun d hd => by
  simp only [details, List.mem_append, List.mem_flatMap]
  exact .inl (.inl (.inl (.inl ⟨type, h, hd⟩)))

theorem details_of_element {element : Element} (h : element ∈ schema.elements) :
    element.details ⊆ schema.details := fun d hd => by
  simp only [details, List.mem_append, List.mem_flatMap]
  exact .inl (.inl (.inl (.inr ⟨element, h, hd⟩)))

theorem details_of_group {group : NamedGroup} (h : group ∈ schema.groups) :
    group.details ⊆ schema.details := fun d hd => by
  simp only [details, List.mem_append, List.mem_flatMap]
  exact .inl (.inl (.inr ⟨group, h, hd⟩))

theorem details_of_attribute {declaration : Attribute} (h : declaration ∈ schema.attributes) :
    declaration.details ⊆ schema.details := fun d hd => by
  simp only [details, List.mem_append, List.mem_flatMap]
  exact .inl (.inr ⟨declaration, h, hd⟩)

theorem details_of_attributeGroup {group : AttributeGroup} (h : group ∈ schema.attributeGroups) :
    group.details ⊆ schema.details := fun d hd => by
  simp only [details, List.mem_append, List.mem_flatMap]
  exact .inr ⟨group, h, hd⟩

end Schema

end Crosswalk
