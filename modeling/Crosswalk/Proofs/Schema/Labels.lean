import Crosswalk.Schema.Component

/-!
# What can become a property

Elements and attributes become properties where they are declared, and wherever the declaration is
expanded. The labels of a declaration are those of the elements and attributes that are declared in
it, at whatever depth. What a name in it stands for has its labels where it is declared.
-/

namespace Crosswalk

/-- The name of an element or attribute, and whether it is qualified in instances. -/
structure Label where
  name : QName
  qualified : Bool
  deriving DecidableEq

/-- The label of an attribute declaration. -/
def Attribute.label (a : Attribute) : Label := ⟨a.name, a.qualified⟩

/-- The label of an element declaration. -/
def Element.label (e : Element) : Label := ⟨e.name, e.qualified⟩

/-- The labels of an attribute use. -/
def AttributeUse.labels : AttributeUse → List Label
  | .declared a _ => [a.label]
  | .reference _ _ _ _ => []
  | .group _ => []

/-- The labels of attribute uses. -/
def usesLabels (uses : List AttributeUse) : List Label := uses.flatMap AttributeUse.labels

mutual

/-- The labels of an element declaration. -/
def Element.labels : Element → List Label
  | ⟨name, qualified, type, _, _, _, _⟩ => ⟨name, qualified⟩ :: type.labels

/-- The labels of an element's type. -/
def ElementType.labels : ElementType → List Label
  | .named _ => []
  | .simple _ => []
  | .complex type => type.labels
  | .any => []

/-- The labels of a complex type. -/
def ComplexType.labels : ComplexType → List Label
  | ⟨content, attributes, _, _⟩ => content.labels ++ usesLabels attributes

/-- The labels of content. -/
def Content.labels : Content → List Label
  | .empty => []
  | .particle p => p.labels
  | .extension _ none => []
  | .extension _ (some p) => p.labels
  | .restriction _ none => []
  | .restriction _ (some p) => p.labels
  | .simple _ _ _ => []

/-- The labels of a particle. -/
def Particle.labels : Particle → List Label
  | ⟨_, _, term⟩ => term.labels

/-- The labels of a term. -/
def Term.labels : Term → List Label
  | .element declaration => declaration.labels
  | .elementRef _ => []
  | .group group => group.labels
  | .groupRef _ => []
  | .any => []

/-- The labels of a model group. -/
def ModelGroup.labels : ModelGroup → List Label
  | ⟨_, particles⟩ => particlesLabels particles

/-- The labels of some particles. -/
def particlesLabels : List Particle → List Label
  | [] => []
  | p :: rest => p.labels ++ particlesLabels rest

end

/-- The labels of a type. -/
def TypeDefinition.labels : TypeDefinition → List Label
  | .simple _ => []
  | .complex type => type.labels

theorem Element.label_mem_labels (e : Element) : e.label ∈ e.labels := by
  cases e
  exact List.mem_cons_self

namespace Schema

/-- The labels of the declarations of a schema. -/
def labels (schema : Schema) : List Label :=
  schema.types.flatMap (fun t => t.definition.labels) ++ schema.elements.flatMap Element.labels ++
    schema.groups.flatMap (fun g => g.group.labels) ++ schema.attributes.map Attribute.label ++
    schema.attributeGroups.flatMap fun g => usesLabels g.attributes

variable {schema : Schema}

theorem labels_of_type {type : NamedType} (h : type ∈ schema.types) :
    type.definition.labels ⊆ schema.labels := fun l hl => by
  simp only [labels, List.mem_append, List.mem_flatMap]
  exact .inl (.inl (.inl (.inl ⟨type, h, hl⟩)))

theorem labels_of_complex {type : NamedType} (h : type ∈ schema.types) {complex : ComplexType}
    (hd : type.definition = .complex complex) : complex.labels ⊆ schema.labels := by
  have := labels_of_type h
  rwa [hd] at this

theorem labels_of_element {element : Element} (h : element ∈ schema.elements) :
    element.labels ⊆ schema.labels := fun l hl => by
  simp only [labels, List.mem_append, List.mem_flatMap]
  exact .inl (.inl (.inl (.inr ⟨element, h, hl⟩)))

theorem label_of_element {element : Element} (h : element ∈ schema.elements) :
    element.label ∈ schema.labels :=
  labels_of_element h element.label_mem_labels

theorem labels_of_group {group : NamedGroup} (h : group ∈ schema.groups) :
    group.group.labels ⊆ schema.labels := fun l hl => by
  simp only [labels, List.mem_append, List.mem_flatMap]
  exact .inl (.inl (.inr ⟨group, h, hl⟩))

theorem label_of_attribute {declaration : Attribute} (h : declaration ∈ schema.attributes) :
    declaration.label ∈ schema.labels := by
  simp only [labels, List.mem_append, List.mem_map]
  exact .inl (.inr ⟨declaration, h, rfl⟩)

theorem labels_of_attributeGroup {group : AttributeGroup} (h : group ∈ schema.attributeGroups) :
    usesLabels group.attributes ⊆ schema.labels := fun l hl => by
  simp only [labels, List.mem_append, List.mem_flatMap]
  exact .inr ⟨group, h, hl⟩

end Schema

end Crosswalk
