import Crosswalk.Proofs.Linkage.Resolution
import Mathlib.Logic.Relation

/-!
# What declarations unfold to

Named types are referred to where they are the type of an element or attribute, the item of a list
or the member of a union. Elsewhere a declaration is expanded in place of its name: the base of a
type, a model group, an attribute with its type, an attribute group. What a declaration holds inside
itself counts as its own; this includes the anonymous types of the elements in its content. A
declaration unfolds to those that its names stand for.
-/

namespace Crosswalk

/-- A name in place of a declaration of a kind. -/
abbrev Mention := DeclarationKind × QName

mutual

/-- The types that a simple type is flattened through. -/
def SimpleType.unfolded : SimpleType → List Mention
  | .restriction base _ => base.unfolded
  | .list item => item.enclosed
  | .union members => enclosedIn members

/-- The types that the base of a restriction is flattened through. -/
def SimpleBase.unfolded : SimpleBase → List Mention
  | .named name => [(.type, name)]
  | .inline type => type.unfolded

/-- The types that an item or member is flattened through, if it has no name. -/
def SimpleBase.enclosed : SimpleBase → List Mention
  | .named _ => []
  | .inline type => type.unfolded

/-- The types that some members are flattened through. -/
def enclosedIn : List SimpleBase → List Mention
  | [] => []
  | b :: rest => b.enclosed ++ enclosedIn rest

end

/-- The types that the type of an attribute is flattened through. -/
def Attribute.unfolded (a : Attribute) : List Mention :=
  match a.type with
  | some base => base.enclosed
  | none => []

/-- What an attribute use expands. An attribute that it takes away is not looked at. -/
def AttributeUse.unfolded : AttributeUse → List Mention
  | .declared a use => if use = .prohibited then [] else a.unfolded
  | .reference name _ _ _ => [(.attribute, name)]
  | .group name => [(.attributeGroup, name)]

/-- What attribute uses expand. -/
def usesUnfolded (uses : List AttributeUse) : List Mention := uses.flatMap AttributeUse.unfolded

mutual

/-- What the type of an element expands. -/
def Element.unfolded : Element → List Mention
  | ⟨_, _, type, _, _, _, _⟩ => type.unfolded

/-- What the type of an element expands: nothing, if it has a name. -/
def ElementType.unfolded : ElementType → List Mention
  | .named _ => []
  | .simple type => type.unfolded
  | .complex type => type.unfolded
  | .any => []

/-- What a complex type expands. -/
def ComplexType.unfolded : ComplexType → List Mention
  | ⟨content, attributes, _, _⟩ => content.unfolded ++ usesUnfolded attributes

/-- What content expands: its base, and what its particle does. -/
def Content.unfolded : Content → List Mention
  | .empty => []
  | .particle p => p.unfolded
  | .extension base none => [(.type, base)]
  | .extension base (some p) => (.type, base) :: p.unfolded
  | .restriction base none => [(.type, base)]
  | .restriction base (some p) => (.type, base) :: p.unfolded
  | .simple base _ _ => [(.type, base)]

/-- What a particle expands that can occur. -/
def Particle.unfolded : Particle → List Mention
  | ⟨_, most, term⟩ => if most = .zero then [] else term.unfolded

/-- What a term expands. -/
def Term.unfolded : Term → List Mention
  | .element e => e.unfolded
  | .elementRef _ => []
  | .group g => g.unfolded
  | .groupRef name => [(.group, name)]
  | .any => []

/-- What a model group expands. -/
def ModelGroup.unfolded : ModelGroup → List Mention
  | ⟨_, particles⟩ => particlesUnfolded particles

/-- What some particles expand. -/
def particlesUnfolded : List Particle → List Mention
  | [] => []
  | p :: rest => p.unfolded ++ particlesUnfolded rest

end

/-- What the definition of a type expands. -/
def TypeDefinition.unfolded : TypeDefinition → List Mention
  | .simple type => type.unfolded
  | .complex type => type.unfolded

/-- What each declaration of a document expands. -/
def Schema.unfolded (schema : Schema) : List (Mention × List Mention) :=
  (schema.types.map fun t => ((.type, t.name), t.definition.unfolded)) ++
  (schema.groups.map fun g => ((.group, g.name), g.group.unfolded)) ++
  (schema.attributes.map fun a => ((.attribute, a.name), a.unfolded)) ++
  (schema.attributeGroups.map fun g => ((.attributeGroup, g.name), usesUnfolded g.attributes))

namespace Linkage

variable {l : Linkage}

/-- A declaration unfolds to what a name stands for that it expands. -/
def Unfolds (l : Linkage) (a b : Mention) : Prop :=
  ∃ file ∈ l.catalog.files, ∃ entry ∈ file.schema.unfolded, entry.1 = a ∧
    ∃ m ∈ entry.2, ∃ r, l.resolve? m.1 file m.2 = some r ∧ b = (m.1, r.name)

/-- Steps from one declaration to another that it unfolds to. -/
abbrev Reaches (l : Linkage) : Mention → Mention → Prop := Relation.TransGen l.Unfolds

variable {file : File} {r : Resolved} {m : Mention}

theorem unfolds_of_entry (hf : file ∈ l.catalog.files) (entry : Mention × List Mention)
    (he : entry ∈ file.schema.unfolded) (hm : m ∈ entry.2)
    (hr : l.resolve? m.1 file m.2 = some r) : l.Unfolds entry.1 (m.1, r.name) :=
  ⟨file, hf, entry, he, rfl, m, hm, r, hr, rfl⟩

theorem unfolds_of_type (hf : file ∈ l.catalog.files) {t : NamedType} (ht : t ∈ file.schema.types)
    (hm : m ∈ t.definition.unfolded) (hr : l.resolve? m.1 file m.2 = some r) :
    l.Unfolds (.type, t.name) (m.1, r.name) := by
  refine unfolds_of_entry hf ((.type, t.name), t.definition.unfolded) ?_ hm hr
  simp only [Schema.unfolded, List.mem_append]
  exact .inl (.inl (.inl (List.mem_map.2 ⟨t, ht, rfl⟩)))

theorem unfolds_of_group (hf : file ∈ l.catalog.files) {g : NamedGroup}
    (hg : g ∈ file.schema.groups) (hm : m ∈ g.group.unfolded)
    (hr : l.resolve? m.1 file m.2 = some r) : l.Unfolds (.group, g.name) (m.1, r.name) := by
  refine unfolds_of_entry hf ((.group, g.name), g.group.unfolded) ?_ hm hr
  simp only [Schema.unfolded, List.mem_append]
  exact .inl (.inl (.inr (List.mem_map.2 ⟨g, hg, rfl⟩)))

theorem unfolds_of_attribute (hf : file ∈ l.catalog.files) {a : Attribute}
    (ha : a ∈ file.schema.attributes) (hm : m ∈ a.unfolded)
    (hr : l.resolve? m.1 file m.2 = some r) : l.Unfolds (.attribute, a.name) (m.1, r.name) := by
  refine unfolds_of_entry hf ((.attribute, a.name), a.unfolded) ?_ hm hr
  simp only [Schema.unfolded, List.mem_append]
  exact .inl (.inr (List.mem_map.2 ⟨a, ha, rfl⟩))

theorem unfolds_of_attributeGroup (hf : file ∈ l.catalog.files) {g : AttributeGroup}
    (hg : g ∈ file.schema.attributeGroups) (hm : m ∈ usesUnfolded g.attributes)
    (hr : l.resolve? m.1 file m.2 = some r) :
    l.Unfolds (.attributeGroup, g.name) (m.1, r.name) := by
  refine unfolds_of_entry hf ((.attributeGroup, g.name), usesUnfolded g.attributes) ?_ hm hr
  simp only [Schema.unfolded, List.mem_append]
  exact .inr (List.mem_map.2 ⟨g, hg, rfl⟩)

end Linkage

end Crosswalk
