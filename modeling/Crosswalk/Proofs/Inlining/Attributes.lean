import Crosswalk.Proofs.Inlining.Object
import Crosswalk.Proofs.Inlining.Simple

/-!
# Attributes of shapes that mirror each other

Attributes are converted alike whether model groups are referred to or inlined, and so two shapes
that mirror each other go on doing so when the attribute uses of a type are taken.
-/

namespace Crosswalk

open Json Check

namespace Conversion

theorem propertyName_of_plain {context : Context}
    (h : context.options.qualifiedPropertyNames = false) (scope : File) (name : QName)
    (qualified : Bool) : propertyName context scope name qualified = name.name := by
  simp [propertyName, h]

theorem does_addAttribute (context : Context) (site : Site) (name : String) (slot : Slot)
    (shape : Shape) : Does (addAttribute context site name slot shape)
      ((shape.addAttribute? name slot).getD shape) := by
  unfold addAttribute
  cases shape.addAttribute? name slot with
  | some result => exact does_pure result
  | none => exact (does_diagnose _ _ _ _).bind (does_pure shape)

/-- The declarations that two conversions are inside of are the same, and this is known of them. -/
def Identical (p : Prop) (v w : Visited) : Prop := p ∧ v = w

variable {Home : Type} {lead : Home → String → Option (Home × Json)} {follow : Follow Home}
  {home home' : Home} {l : Linkage} {o : Options} {f g : File} {u u' : Table QName Nat} {p : Prop}
  {s s' : Shape}

section

variable (lead follow home home' o p)

/-- Content is added to shapes that mirror each other, so that they still do. -/
def Mirrored (c d : Conversion Shape) : Prop :=
  Agree Outside (Identical p) c d (Shape.Mirrors lead follow o.textProperty home home')

/-- Two ways to add the attributes of a group come to the same. -/
def ExtendsAlike (expand expand' : AttributeExpansion) : Prop :=
  ∀ (scope : File) (location location' : String) (located : Located AttributeGroup)
    {s s' : Shape}, s.Mirrors lead follow o.textProperty home home' s' →
      Mirrored lead follow home home' o p (expand ⟨scope, location⟩ located s)
        (expand' ⟨scope, location'⟩ located s')

end

section

variable (reads : ReadsAlike l o follow home home' f g) (hq : o.qualifiedPropertyNames = false)
include reads hq

theorem mirrored_attribute (scope : File) (site site' : Site) (declaration : Attribute)
    (default fixed : Option String) (required : Bool)
    (h : s.Mirrors lead follow o.textProperty home home' s') :
    Mirrored lead follow home home' o p
      (do
        let item ← attributeSchema (contextWith l o u f) scope declaration default fixed
        addAttribute (contextWith l o u f) site
          (propertyName (contextWith l o u f) scope declaration.name declaration.qualified)
          (.ofAttribute item required) s)
      (do
        let item ← attributeSchema (contextWith l o u' g) scope declaration default fixed
        addAttribute (contextWith l o u' g) site'
          (propertyName (contextWith l o u' g) scope declaration.name declaration.qualified)
          (.ofAttribute item required) s') := by
  refine (agree_attributeSchema u u' reads scope declaration default fixed).outside.bind
    fun item item' hi => ?_
  rw [propertyName_of_plain hq, propertyName_of_plain hq]
  exact .of_does (does_addAttribute _ _ _ _ _) (does_addAttribute _ _ _ _ _)
    (h.addAttribute _ ⟨.of_same hi, rfl, rfl, rfl⟩)

theorem mirrored_collectUse {expand expand' : AttributeExpansion}
    (he : ExtendsAlike lead follow home home' o p expand expand') (scope : File)
    (location location' : String) (h : s.Mirrors lead follow o.textProperty home home' s')
    (use : AttributeUse) : Mirrored lead follow home home' o p
      (collectUse (contextWith l o u f) expand ⟨scope, location⟩ s use)
      (collectUse (contextWith l o u' g) expand' ⟨scope, location'⟩ s' use) := by
  cases use with
  | declared declaration use =>
      unfold collectUse
      dsimp only
      split
      · rw [propertyName_of_plain hq, propertyName_of_plain hq]
        exact Agree.pure (h.removeAttribute _)
      · exact mirrored_attribute reads hq scope _ _ declaration none none _ h
  | reference reference use default fixed =>
      unfold collectUse
      refine (Agree.found _).bind fun located located' hl => ?_
      obtain ⟨rfl, -⟩ := hl
      dsimp only
      split
      · rw [propertyName_of_plain hq, propertyName_of_plain hq]
        exact Agree.pure (h.removeAttribute _)
      · exact mirrored_attribute reads hq located.file _ _ located.declaration default fixed _ h
  | group reference =>
      unfold collectUse
      refine (Agree.found _).bind fun located located' hl => ?_
      obtain ⟨rfl, -⟩ := hl
      refine ((he located.file location location' located h).visiting
        (enters_eq p Expandable.noConfusion)).bind fun t t' ht => Agree.pure ?_
      split
      · exact ht.opened fun _ => rfl
      · exact ht

theorem mirrored_collectUses {expand expand' : AttributeExpansion}
    (he : ExtendsAlike lead follow home home' o p expand expand') (scope : File)
    (location location' : String) {s s' : Shape}
    (h : s.Mirrors lead follow o.textProperty home home' s') :
    ∀ uses : List AttributeUse, Mirrored lead follow home home' o p
      (collectUses (contextWith l o u f) expand ⟨scope, location⟩ s uses)
      (collectUses (contextWith l o u' g) expand' ⟨scope, location'⟩ s' uses)
  | [] => Agree.pure h
  | use :: rest =>
    (mirrored_collectUse reads hq he scope location location' h use).bind fun _ _ ht =>
      mirrored_collectUses he scope location location' ht rest

theorem extendsAlike_expandAttributes : ∀ depth : Nat,
    ExtendsAlike lead follow home home' o p (expandAttributes (contextWith l o u f) depth)
      (expandAttributes (contextWith l o u' g) depth)
  | 0, _, _, _, _, _, _, _ => Agree.throw
  | depth + 1, scope, location, location', located, _, _, h =>
    mirrored_collectUses reads hq (extendsAlike_expandAttributes depth) scope location location' h
      located.declaration.attributes

theorem mirrored_collectAttributes (u u' : Table QName Nat) (scope : File)
    (location location' : String) (uses : List AttributeUse)
    (h : s.Mirrors lead follow o.textProperty home home' s') :
    Mirrored lead follow home home' o p
      (collectAttributes (contextWith l o u f) ⟨scope, location⟩ uses s)
      (collectAttributes (contextWith l o u' g) ⟨scope, location'⟩ uses s') :=
  mirrored_collectUses reads hq (extendsAlike_expandAttributes reads hq _) scope location location'
    h uses

end

end Conversion

end Crosswalk
