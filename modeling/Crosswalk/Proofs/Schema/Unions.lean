import Crosswalk.Proofs.Schema.Details
import Crosswalk.Proofs.Schema.Hereditary

/-!
# The unions of a schema that was read

A union without members admits nothing, and has no counterpart among schemas. The reader refuses
one, wherever it is nested, and so no schema that was read has any.
-/

namespace Crosswalk

/-- A union has members. -/
def Detail.IsInhabited : Detail → Prop
  | .name _ => True
  | .union members => members ≠ []

/-- The unions among some details have members. -/
def AreInhabited (details : List Detail) : Prop := ∀ d ∈ details, d.IsInhabited

namespace AreInhabited

theorem nil : AreInhabited [] := fun _ h => absurd h List.not_mem_nil

theorem name {name : QName} {rest : List Detail} (h : AreInhabited rest) :
    AreInhabited (.name name :: rest) :=
  List.forall_mem_cons.2 ⟨True.intro, h⟩

theorem append {first rest : List Detail} (h : AreInhabited first) (hr : AreInhabited rest) :
    AreInhabited (first ++ rest) :=
  List.forall_mem_append.2 ⟨h, hr⟩

theorem bases {members : List SimpleBase} (h : ∀ m ∈ members, AreInhabited m.details) :
    AreInhabited (basesDetails members) := by
  induction members with
  | nil => exact nil
  | cons m rest ih =>
      rw [List.forall_mem_cons] at h
      exact h.1.append (ih h.2)

theorem flatMap {α : Type} {details : α → List Detail} {as : List α}
    (h : ∀ a ∈ as, AreInhabited (details a)) : AreInhabited (as.flatMap details) := by
  intro d hd
  obtain ⟨a, ha, hd⟩ := List.mem_flatMap.1 hd
  exact h a ha d hd

theorem particles {particles : List Particle} (h : ∀ p ∈ particles, AreInhabited p.details) :
    AreInhabited (particlesDetails particles) := by
  induction particles with
  | nil => exact nil
  | cons p rest ih =>
      rw [List.forall_mem_cons] at h
      exact h.1.append (ih h.2)

theorem attributeOf {a : Attribute} (h : ∀ b, a.type = some b → AreInhabited b.details) :
    AreInhabited a.details := by
  obtain ⟨_, _, type, _, _, _⟩ := a
  cases type with
  | none => exact nil.name
  | some b => exact (h b rfl).name

theorem complex {t : ComplexType} (hc : AreInhabited t.content.details)
    (hu : ∀ u ∈ t.attributes, AreInhabited u.details) : AreInhabited t.details := by
  rw [ComplexType.details_eq]
  exact hc.append (flatMap hu)

end AreInhabited

/-- That unions have members is hereditary. -/
def Hereditary.inhabited : Hereditary where
  base b := AreInhabited b.details
  use u := AreInhabited u.details
  type t := AreInhabited t.details
  content c := AreInhabited c.details
  particle p := AreInhabited p.details
  base_named _ := .nil
  base_restriction _ h := h
  base_list h := h
  base_union hne h := List.forall_mem_cons.2 ⟨hne, AreInhabited.bases h⟩
  use_declared _ h := .attributeOf h
  use_reference _ _ _ _ := .nil
  use_group _ := .nil
  type_named _ := .nil
  type_simple h := h
  type_complex hc hu := .complex hc hu
  type_any := .nil
  content_empty := .nil
  content_particle h := h
  content_extension _ p? h := by
    cases p? with
    | none => exact .nil
    | some p => exact h p rfl
  content_restriction _ p? h := by
    cases p? with
    | none => exact .nil
    | some p => exact h p rfl
  content_simple _ _ _ := .nil
  particle_element {least most e} _ h := by
    cases e
    exact AreInhabited.name h
  particle_elementRef _ _ := .nil
  particle_group _ _ _ h := .particles h
  particle_groupRef _ _ := .nil
  particle_any _ := .nil

namespace Schema

/-- The unions of a schema that was read have members. -/
theorem IsRead.areInhabited {schema : Schema} (h : schema.IsRead) :
    AreInhabited schema.details := by
  obtain ⟨types, elements, groups, attributes, attributeGroups⟩ := h.holds .inhabited
  refine .append (.append (.append (.append (.flatMap fun t ht => .name ?_)
    (.flatMap fun e he => ?_)) (.flatMap fun g hg => .name ?_))
    (.flatMap fun a ha => .attributeOf (attributes a ha)))
    (.flatMap fun g hg => .name (.flatMap (attributeGroups g hg)))
  · have hdefinition := types t ht
    revert hdefinition
    cases t.definition with
    | simple type => exact id
    | complex type => exact fun hc => .complex hc.1 hc.2
  · have htype := elements e he
    cases e
    exact .name htype
  · have hparticles := groups g hg
    revert hparticles
    cases g.group
    exact .particles

end Schema

end Crosswalk
