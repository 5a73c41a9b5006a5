import Crosswalk.Proofs.Linkage.Parts
import Crosswalk.Proofs.Schema.Hereditary

/-!
# Occurrence bounds in order

Bounds are in order if they do not ask for more occurrences than they admit. The reader refuses
particles whose bounds are not, wherever they are nested, and so whatever the conversion of a file
goes through has bounds in order.
-/

namespace Crosswalk

mutual

/-- The bounds in an element declaration are in order. -/
def Element.IsOrdered : Element → Prop
  | ⟨_, _, type, _, _, _, _⟩ => type.IsOrdered

/-- The bounds in the type of an element are in order. -/
def ElementType.IsOrdered : ElementType → Prop
  | .named _ => True
  | .simple _ => True
  | .complex type => type.IsOrdered
  | .any => True

/-- The bounds in a complex type are in order. -/
def ComplexType.IsOrdered : ComplexType → Prop
  | ⟨content, _, _, _⟩ => content.IsOrdered

/-- The bounds in content are in order. -/
def Content.IsOrdered : Content → Prop
  | .empty => True
  | .particle p => p.IsOrdered
  | .extension _ none => True
  | .extension _ (some p) => p.IsOrdered
  | .restriction _ none => True
  | .restriction _ (some p) => p.IsOrdered
  | .simple _ _ _ => True

/-- The bounds of a particle, and those in its term, are in order. -/
def Particle.IsOrdered : Particle → Prop
  | ⟨least, most, term⟩ => Bounds.IsOrdered ⟨least, most⟩ ∧ term.IsOrdered

/-- The bounds in a term are in order. -/
def Term.IsOrdered : Term → Prop
  | .element declaration => declaration.IsOrdered
  | .elementRef _ => True
  | .group group => group.IsOrdered
  | .groupRef _ => True
  | .any => True

/-- The bounds in a model group are in order. -/
def ModelGroup.IsOrdered : ModelGroup → Prop
  | ⟨_, particles⟩ => AreOrdered particles

/-- The bounds of some particles are in order. -/
def AreOrdered : List Particle → Prop
  | [] => True
  | p :: rest => p.IsOrdered ∧ AreOrdered rest

end

theorem areOrdered_iff {particles : List Particle} :
    AreOrdered particles ↔ ∀ p ∈ particles, p.IsOrdered := by
  induction particles with
  | nil => exact iff_of_true True.intro (List.forall_mem_nil _)
  | cons p rest ih => rw [AreOrdered, ih, List.forall_mem_cons]

theorem Element.isOrdered_iff {declaration : Element} :
    declaration.IsOrdered ↔ declaration.type.IsOrdered := by
  cases declaration
  exact Iff.rfl

theorem ComplexType.isOrdered_iff {type : ComplexType} :
    type.IsOrdered ↔ type.content.IsOrdered := by
  cases type
  exact Iff.rfl

theorem ModelGroup.isOrdered_iff {group : ModelGroup} :
    group.IsOrdered ↔ AreOrdered group.particles := by
  cases group
  exact Iff.rfl

theorem Content.isOrdered_of_particle? {content : Content} {p : Particle}
    (h : content.IsOrdered) (hp : content.particle? = some p) : p.IsOrdered := by
  cases content with
  | particle q => exact Option.some.inj hp ▸ h
  | extension base q? =>
      cases (show q? = some p from hp)
      exact h
  | restriction base q? =>
      cases (show q? = some p from hp)
      exact h
  | _ => cases hp

theorem Particle.isOrdered_term {p : Particle} (h : p.IsOrdered) : p.term.IsOrdered := by
  cases p
  exact h.2

/-- The bounds in a type are in order if it is complex. -/
def TypeDefinition.IsOrdered : TypeDefinition → Prop
  | .simple _ => True
  | .complex type => type.IsOrdered

/-- The bounds in a part are in order. -/
def Part.IsOrdered : Part → Prop
  | .complex _ type => type.IsOrdered
  | .particle p => p.IsOrdered
  | .modelGroup group => group.IsOrdered
  | .namedGroup declaration => declaration.group.IsOrdered
  | .element declaration => declaration.IsOrdered
  | _ => True

/-- That bounds are in order is hereditary. -/
def Hereditary.ordered : Hereditary where
  base _ := True
  use _ := True
  type := ElementType.IsOrdered
  content := Content.IsOrdered
  particle := Particle.IsOrdered
  base_named _ := True.intro
  base_restriction _ _ := True.intro
  base_list _ := True.intro
  base_union _ _ := True.intro
  use_declared _ _ := True.intro
  use_reference _ _ _ _ := True.intro
  use_group _ := True.intro
  type_named _ := True.intro
  type_simple _ := True.intro
  type_complex hc _ := ComplexType.isOrdered_iff.2 hc
  type_any := True.intro
  content_empty := True.intro
  content_particle h := h
  content_extension _ p? h := by
    cases p? with
    | none => exact True.intro
    | some p => exact h p rfl
  content_restriction _ p? h := by
    cases p? with
    | none => exact True.intro
    | some p => exact h p rfl
  content_simple _ _ _ := True.intro
  particle_element hb ht := ⟨hb, Element.isOrdered_iff.2 ht⟩
  particle_elementRef _ hb := ⟨hb, True.intro⟩
  particle_group _ _ hb h := ⟨hb, areOrdered_iff.2 h⟩
  particle_groupRef _ hb := ⟨hb, True.intro⟩
  particle_any hb := ⟨hb, True.intro⟩

namespace Schema

/-- The bounds in what a schema declares are in order. -/
structure IsOrdered (schema : Schema) : Prop where
  types : ∀ type ∈ schema.types, type.definition.IsOrdered
  elements : ∀ element ∈ schema.elements, element.IsOrdered
  groups : ∀ group ∈ schema.groups, group.group.IsOrdered

/-- The bounds in a schema that was read are in order. -/
theorem IsRead.isOrdered {schema : Schema} (h : schema.IsRead) : schema.IsOrdered := by
  have holds := h.holds .ordered
  refine ⟨fun t ht => ?_, fun e he => ?_, fun g hg => ?_⟩
  · have hdefinition := holds.types t ht
    revert hdefinition
    cases t.definition with
    | simple _ => exact fun _ => True.intro
    | complex _ => exact fun hc => ComplexType.isOrdered_iff.2 hc.1
  · exact Element.isOrdered_iff.2 (holds.elements e he)
  · exact ModelGroup.isOrdered_iff.2 (areOrdered_iff.2 (holds.groups g hg))

end Schema

/-! ### Linked files -/

namespace Linkage

/-- The files are linked, and the bounds in them are in order. -/
structure IsOrdered (l : Linkage) : Prop where
  linked : l.IsLinked
  files : ∀ file ∈ l.catalog.files, file.schema.IsOrdered

variable {l : Linkage} {scope : File} {name : QName}

namespace IsOrdered

variable (h : l.IsOrdered)
include h

theorem type {located : Located NamedType} (hl : l.type? scope name = some located) :
    located.declaration.definition.IsOrdered := by
  have hl : l.lookup? .types scope name = some located := hl
  obtain ⟨hf, hd, -⟩ := h.linked.found hl
  exact (h.files _ hf).types _ hd

theorem complex {located : Located NamedType} {type : ComplexType}
    (hc : l.IsComplex scope name located type) : type.IsOrdered := by
  have hdefinition := h.type hc.2.1
  rw [hc.2.2] at hdefinition
  exact hdefinition

theorem group {located : Located NamedGroup} (hl : l.group? scope name = some located) :
    located.declaration.group.IsOrdered := by
  have hl : l.lookup? .groups scope name = some located := hl
  obtain ⟨hf, hd, -⟩ := h.linked.found hl
  exact (h.files _ hf).groups _ hd

theorem step {a b : StatedPart} (hs : l.Step a b) (ha : a.2.IsOrdered) : b.2.IsOrdered := by
  cases hs with
  | complexBase _ hc => exact h.complex hc
  | content hp => exact Content.isOrdered_of_particle? (ComplexType.isOrdered_iff.1 ha) hp
  | element _ ht =>
      have hterm := Particle.isOrdered_term ha
      rw [ht] at hterm
      exact hterm
  | nested _ ht =>
      have hterm := Particle.isOrdered_term ha
      rw [ht] at hterm
      exact hterm
  | group _ _ hl => exact h.group hl
  | groupParticle hp => exact areOrdered_iff.1 (ModelGroup.isOrdered_iff.1 ha) _ hp
  | definition => exact ha
  | @complexType _ declaration type ht =>
      cases declaration
      cases ht
      exact ha
  | _ => exact True.intro

/-- Whatever the conversion of a file goes through, the bounds in it are in order. -/
theorem visits {file : File} (hf : file ∈ l.catalog.files) {place : StatedPart}
    (hv : l.Visits file place) : place.2.IsOrdered := by
  obtain ⟨part, hdescribed, hpath⟩ := hv
  induction hpath with
  | refl =>
      cases hdescribed with
      | simple _ _ => exact True.intro
      | complex ht hd =>
          have hdefinition := (h.files file hf).types _ ht
          rw [hd] at hdefinition
          exact hdefinition
      | group hg _ => exact (h.files file hf).groups _ hg
      | element he => exact (h.files file hf).elements _ he
  | tail _ hs ih => exact h.step hs ih

end IsOrdered

end Linkage

end Crosswalk
