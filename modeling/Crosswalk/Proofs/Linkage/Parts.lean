import Crosswalk.Conversion.File
import Crosswalk.Proofs.Linkage.Resolution
import Mathlib.Logic.Relation

/-!
# What the conversion of a file goes through

A conversion starts with the declarations that its document describes, and goes through the parts
that they hold and through what it expands in place of a name: the bases of complex types, model
groups, attributes and groups of attributes. The named base of a simple type does not count, for it
is described where it is declared. Types are described by the document of their own file in any
case; the other declarations that are expanded may be gone through by conversions of other files
only.
-/

namespace Crosswalk

open Conversion

/-- What a conversion takes on its own. -/
inductive Part where
  | simple (type : SimpleType)
  | use (use : AttributeUse)
  | attribute (declaration : Attribute)
  | attributeGroup (declaration : AttributeGroup)
  /-- A complex type, or what another one inherits from it. -/
  | complex (inheritance : Inheritance) (type : ComplexType)
  | particle (p : Particle)
  | modelGroup (group : ModelGroup)
  | namedGroup (declaration : NamedGroup)
  | element (declaration : Element)

/-- A part, and the file that states it. -/
abbrev StatedPart := File × Part

/-- The particle that content states itself. -/
def Content.particle? : Content → Option Particle
  | .particle p => some p
  | .extension _ p? => p?
  | .restriction _ p? => p?
  | _ => none

/-- What content inherits from its base if this is complex. -/
def Content.inherited : Content → Inheritance → Inheritance
  | .extension _ _, inheritance => inheritance
  | .simple _ _ _, _ => .everything
  | _, _ => .attributes

/-- A restriction that a part states. That of simple content restricts its character data. -/
inductive Part.States : Part → SimpleBase → List Facet → Prop
  | type {base : SimpleBase} {facets : List Facet} :
    States (.simple (.restriction base facets)) base facets
  | content {inheritance : Inheritance} {type : ComplexType} {base : QName} {facets : List Facet}
    (hc : type.content = .simple base .restriction facets) (hf : facets ≠ []) :
    States (.complex inheritance type) (.named base) facets

/-- A declaration that is expanded in place of its name, and need not be described by any
document. -/
inductive Part.IsShared : Part → Prop
  | attribute {declaration : Attribute} : IsShared (.attribute declaration)
  | attributeGroup {declaration : AttributeGroup} : IsShared (.attributeGroup declaration)
  | namedGroup {declaration : NamedGroup} : IsShared (.namedGroup declaration)

/-- The same, or what a complex type hands down and all of the type. -/
inductive Part.IsWithin : Part → Part → Prop
  | same {part : Part} : IsWithin part part
  | inherited {inheritance : Inheritance} {type : ComplexType} :
    IsWithin (.complex inheritance type) (.complex .everything type)

/-- A type hands down no less of its base than what is handed down of the type itself. -/
theorem Part.IsWithin.inheritedBy (content : Content) {inheritance : Inheritance}
    {type : ComplexType} : IsWithin (.complex (content.inherited inheritance) type)
      (.complex (content.inherited .everything) type) := by
  cases content with
  | extension base p? => exact .inherited
  | _ => exact .same

theorem Part.States.within {p q : Part} {base : SimpleBase} {facets : List Facet}
    (h : p.States base facets) (hpq : p.IsWithin q) : q.States base facets := by
  cases hpq with
  | same => exact h
  | inherited =>
      cases h with
      | content hc hf => exact .content hc hf

namespace Linkage

/-- A name stands for a complex type. -/
def IsComplex (l : Linkage) (scope : File) (name : QName) (located : Located NamedType)
    (type : ComplexType) : Prop :=
  name.isBuiltin = false ∧ l.type? scope name = some located ∧
    located.declaration.definition = .complex type

/-- From one place to the next. -/
inductive Step (l : Linkage) : StatedPart → StatedPart → Prop
  | base {scope : File} {type : SimpleType} {facets : List Facet} :
    Step l (scope, .simple (.restriction (.inline type) facets)) (scope, .simple type)
  | item {scope : File} {type : SimpleType} :
    Step l (scope, .simple (.list (.inline type))) (scope, .simple type)
  | member {scope : File} {type : SimpleType} {members : List SimpleBase}
    (hm : .inline type ∈ members) :
    Step l (scope, .simple (.union members)) (scope, .simple type)
  | declared {scope : File} {declaration : Attribute} {use : Use} {type : SimpleType}
    (hu : use ≠ .prohibited) (ht : declaration.type = some (.inline type)) :
    Step l (scope, .use (.declared declaration use)) (scope, .simple type)
  | reference {scope : File} {name : QName} {use : Use} {default fixed : Option String}
    {located : Located Attribute} (hu : use ≠ .prohibited)
    (hl : l.attribute? scope name = some located) :
    Step l (scope, .use (.reference name use default fixed))
      (located.file, .attribute located.declaration)
  | attributes {scope : File} {name : QName} {located : Located AttributeGroup}
    (hl : l.attributeGroup? scope name = some located) :
    Step l (scope, .use (.group name)) (located.file, .attributeGroup located.declaration)
  | attributeType {scope : File} {declaration : Attribute} {type : SimpleType}
    (ht : declaration.type = some (.inline type)) :
    Step l (scope, .attribute declaration) (scope, .simple type)
  | groupUse {scope : File} {declaration : AttributeGroup} {use : AttributeUse}
    (hu : use ∈ declaration.attributes) :
    Step l (scope, .attributeGroup declaration) (scope, .use use)
  | complexUse {scope : File} {inheritance : Inheritance} {type : ComplexType} {use : AttributeUse}
    (hu : use ∈ type.attributes) :
    Step l (scope, .complex inheritance type) (scope, .use use)
  | complexBase {scope : File} {inheritance : Inheritance} {type : ComplexType} {base : QName}
    {located : Located NamedType} {baseType : ComplexType} (hb : type.content.base? = some base)
    (hl : l.IsComplex scope base located baseType) :
    Step l (scope, .complex inheritance type)
      (located.file, .complex (type.content.inherited inheritance) baseType)
  | content {scope : File} {type : ComplexType} {p : Particle}
    (hp : type.content.particle? = some p) :
    Step l (scope, .complex .everything type) (scope, .particle p)
  | element {scope : File} {p : Particle} {declaration : Element} (hm : p.most ≠ .zero)
    (ht : p.term = .element declaration) : Step l (scope, .particle p) (scope, .element declaration)
  | nested {scope : File} {p : Particle} {group : ModelGroup} (hm : p.most ≠ .zero)
    (ht : p.term = .group group) : Step l (scope, .particle p) (scope, .modelGroup group)
  | group {scope : File} {p : Particle} {name : QName} {located : Located NamedGroup}
    (hm : p.most ≠ .zero) (ht : p.term = .groupRef name)
    (hl : l.group? scope name = some located) :
    Step l (scope, .particle p) (located.file, .namedGroup located.declaration)
  | groupParticle {scope : File} {group : ModelGroup} {p : Particle} (hp : p ∈ group.particles) :
    Step l (scope, .modelGroup group) (scope, .particle p)
  | definition {scope : File} {declaration : NamedGroup} :
    Step l (scope, .namedGroup declaration) (scope, .modelGroup declaration.group)
  | simpleType {scope : File} {declaration : Element} {type : SimpleType}
    (ht : declaration.type = .simple type) :
    Step l (scope, .element declaration) (scope, .simple type)
  | complexType {scope : File} {declaration : Element} {type : ComplexType}
    (ht : declaration.type = .complex type) :
    Step l (scope, .element declaration) (scope, .complex .everything type)

/-- What the document of a file describes. -/
inductive IsDescribed (l : Linkage) (file : File) : Part → Prop
  | simple {t : NamedType} {type : SimpleType} (ht : t ∈ file.schema.types)
    (hd : t.definition = .simple type) : IsDescribed l file (.simple type)
  | complex {t : NamedType} {type : ComplexType} (ht : t ∈ file.schema.types)
    (hd : t.definition = .complex type) : IsDescribed l file (.complex .everything type)
  | group {g : NamedGroup} (hg : g ∈ file.schema.groups) (hr : l.isReused g.name = true) :
    IsDescribed l file (.namedGroup g)
  | element {e : Element} (he : e ∈ file.schema.elements) : IsDescribed l file (.element e)

/-- The conversion of a file goes through a place. -/
def Visits (l : Linkage) (file : File) (place : StatedPart) : Prop :=
  ∃ part, l.IsDescribed file part ∧ Relation.ReflTransGen l.Step (file, part) place

/-- The facets of simple content narrow the character data of a complex type. -/
def Narrows (l : Linkage) : StatedPart → Prop
  | (scope, .complex _ type) => ∃ base derivation facets located baseType,
      type.content = .simple base derivation facets ∧ l.IsComplex scope base located baseType
  | _ => False

/-- Whatever a file shares with conversions of other files, its own conversion goes through as
well. -/
def IsVisitedAtHome (l : Linkage) (home : File) : Prop :=
  ∀ file ∈ l.catalog.files, ∀ part : Part, part.IsShared →
    l.Visits file (home, part) → l.Visits home (home, part)

variable {l : Linkage} {home : File}

theorem Visits.step {file : File} {a b : StatedPart} (h : l.Visits file a) (hs : l.Step a b) :
    l.Visits file b :=
  h.imp fun _ h => ⟨h.1, h.2.tail hs⟩

/-- A step from less of a type is one from all of it. -/
theorem Step.within {scope : File} {p q : Part} {place : StatedPart} (h : l.Step (scope, p) place)
    (hpq : p.IsWithin q) :
    ∃ part, place.2.IsWithin part ∧ l.Step (scope, q) (place.1, part) := by
  cases hpq with
  | same => exact ⟨place.2, .same, h⟩
  | inherited =>
      cases h with
      | complexUse hu => exact ⟨_, .same, .complexUse hu⟩
      | content hp => exact ⟨_, .same, .content hp⟩
      | complexBase hb hl => exact ⟨_, .inheritedBy _, .complexBase hb hl⟩

/-- A step stays in its file, or leads to a declaration of another one. -/
theorem Step.target {a b : StatedPart} (h : l.Step a b) (hlinked : l.IsLinked) :
    b.1 = a.1 ∨ b.2.IsShared ∨ ∃ part, b.2.IsWithin part ∧ l.IsDescribed b.1 part := by
  cases h with
  | reference _ _ => exact .inr (.inl .attribute)
  | attributes _ => exact .inr (.inl .attributeGroup)
  | group _ _ _ => exact .inr (.inl .namedGroup)
  | complexBase _ hl =>
      have hl' : l.lookup? .types _ _ = some _ := hl.2.1
      obtain ⟨-, hd, -⟩ := hlinked.found hl'
      exact .inr (.inr ⟨_, .inherited, .complex hd hl.2.2⟩)
  | _ => exact .inl rfl

/-- What conversions go through in a file that is visited at home, the conversion of the file goes
through. -/
theorem Visits.atHome (hlinked : l.IsLinked) (hhome : l.IsVisitedAtHome home) {file : File}
    (hf : file ∈ l.catalog.files) {part : Part} (h : l.Visits file (home, part)) :
    ∃ part', part.IsWithin part' ∧ l.Visits home (home, part') := by
  obtain ⟨root, hroot, hpath⟩ := h
  generalize hplace : (home, part) = place at hpath
  induction hpath generalizing part with
  | refl =>
      obtain ⟨rfl, rfl⟩ := Prod.mk.inj hplace
      exact ⟨part, .same, part, hroot, .refl⟩
  | @tail before _ hpath hstep ih =>
      subst hplace
      rcases hstep.target hlinked with hsame | hshared | ⟨part', hwithin, hdescribed⟩
      · obtain ⟨scope, p⟩ := before
        obtain rfl : home = scope := hsame
        obtain ⟨p', hp, hvisits⟩ := ih rfl
        obtain ⟨part', hwithin, hstep'⟩ := hstep.within hp
        exact ⟨part', hwithin, hvisits.step hstep'⟩
      · exact ⟨part, .same, hhome file hf part hshared ⟨root, hroot, hpath.tail hstep⟩⟩
      · exact ⟨part', hwithin, part', hdescribed, .refl⟩

/-- A file on its own shares nothing with others. -/
theorem isVisitedAtHome_of_singleton (h : l.catalog.files = [home]) : l.IsVisitedAtHome home := by
  intro file hf part _ hvisits
  rw [h] at hf
  exact List.mem_singleton.1 hf ▸ hvisits

end Linkage

end Crosswalk
