import Crosswalk.Proofs.Counterpart.Alongside

/-!
# Conversions in batches that correspond

A declaration is converted alike for twins: with the same result and the same diagnostics. The
induction is over the components of a schema, with the names that they mention seen from both files.
What is found under a name is expanded on both sides, by induction on the depths that expansions
have: these may differ, for a batch can have declarations that the other one lacks; but there is room
on both sides for every declaration that the conversions are not inside of.
-/

namespace Crosswalk

namespace Conversion

open Declarations

variable {context context' : Context} {v : Visited} {n n' : Nat} {f g : File} {location : String}
  {refs : List Reference}

/-! ### Simple types -/

theorem found_congr {α : Type} (hf : f.filename = g.filename) (referencing : String)
    (name : QName) (result : Option α) :
    found f referencing name result = found g referencing name result := by
  unfold found
  rw [hf]

theorem sameFrom_builtinShape (hf : f.filename = g.filename) (typeName : String) (name : QName) :
    SameFrom v (builtinShape f typeName name) (builtinShape g typeName name) := by
  refine .of_eq (steady_map _ (steady_found f _ name _)) ?_
  unfold builtinShape
  rw [found_congr hf]

theorem sameFrom_typeReference (h : context.Corresponds context') (hf : context.Twins context' f g)
    {name : QName} (hs : context.linkage.Sees context'.linkage f g refs)
    (hr : ⟨.type, name, location⟩ ∈ refs) (referencing : String) :
    SameFrom v (typeReference context f name referencing)
      (typeReference context' g name referencing) := by
  unfold typeReference
  refine .ite (fun _ => ?_) fun hb => ?_
  · exact .of_eq (steady_found f referencing name _) (found_congr hf.filename _ _ _)
  · refine .found_bind hf.filename (h.linkage.type? hs hr (Bool.eq_false_iff.2 hb))
      fun a b _ hab => ?_
    rw [h.linkTo hab.twins, hab.declaration]
    exact .pure _

/-- Simple types of which there is room for so many on either side are expanded alike. -/
def SimpleAlike (context context' : Context) (n n' : Nat) (expand expand' : SimpleExpansion) :
    Prop :=
  ∀ (v : Visited) (a b : Located NamedType) (type : SimpleType), Inside context.linkage v →
    context.linkage.declarations.types.length + 1 ≤ n + v.simple.length →
    context'.linkage.declarations.types.length + 1 ≤ n' + v.simple.length →
    context.linkage.Stands context'.linkage a b → a.declaration ∈ a.file.schema.types →
    a.declaration.definition = .simple type → SameFrom v (expand a type) (expand' b type)

/-- There is room on both sides for every simple type that the conversions are not inside of. -/
structure SimpleRooms (context context' : Context) (v : Visited) (n n' : Nat)
    (expand expand' : SimpleExpansion) : Prop where
  same : context.Corresponds context'
  inside : Inside context.linkage v
  alike : SimpleAlike context context' n n' expand expand'
  fits : context.linkage.declarations.types.length ≤ n + v.simple.length
  fits' : context'.linkage.declarations.types.length ≤ n' + v.simple.length

section

variable {expand expand' : SimpleExpansion}

theorem sameFrom_namedBase (rooms : SimpleRooms context context' v n n' expand expand')
    (hf : context.Twins context' f g) {name : QName}
    (hs : context.linkage.Sees context'.linkage f g refs) (hr : ⟨.type, name, location⟩ ∈ refs)
    (typeName : String) :
    SameFrom v (namedBase context expand f typeName name)
      (namedBase context' expand' g typeName name) := by
  unfold namedBase
  refine .ite (fun _ => sameFrom_builtinShape hf.filename typeName name) fun hb => ?_
  have hb := Bool.eq_false_iff.2 hb
  refine .found_bind hf.filename (rooms.same.linkage.type? hs hr hb) fun a b ha hab => ?_
  have ha : context.linkage.lookup? .types f name = some a := ha
  obtain ⟨-, hd, -⟩ := rooms.same.linkage.linked.found ha
  rw [← hab.declaration]
  split
  · next type htype =>
      refine .visiting hf.filename fun hn => ?_
      exact rooms.alike _ a b type
        (rooms.inside.enter (rooms.same.linkage.linked.contains (.inl hb) ha) hn)
        (fits_enter .simple rooms.fits) (fits_enter .simple rooms.fits') hab hd htype
  · exact .bind (.of_eq (isClosed_steady.diagnose context f _ _) (rooms.same.diagnose hf _ _))
      fun _ => sameFrom_builtinShape hf.filename typeName _

mutual

theorem sameFrom_shapeWith (rooms : SimpleRooms context context' v n n' expand expand')
    (hf : context.Twins context' f g) (typeName : String) (report : Bool) :
    ∀ type : SimpleType, context.linkage.Sees context'.linkage f g (type.references location) →
      SameFrom v (shapeWith context expand f typeName report type)
        (shapeWith context' expand' g typeName report type)
  | .restriction base facets, hs => by
      unfold shapeWith
      refine .bind (sameFrom_baseShape rooms hf typeName report base hs) fun inherited => ?_
      cases report with
      | true =>
          exact .bind (.of_eq (isClosed_steady.recordIssues context f typeName _)
            (rooms.same.recordIssues hf typeName _)) fun _ => .pure _
      | false => exact .pure _
  | .list item, hs => by
      unfold shapeWith
      exact .map _ (sameFrom_baseSchemaWith rooms hf typeName report item hs)
  | .union members, hs => by
      unfold shapeWith
      exact .map _ (sameFrom_memberSchemas rooms hf typeName report members hs)

theorem sameFrom_baseShape (rooms : SimpleRooms context context' v n n' expand expand')
    (hf : context.Twins context' f g) (typeName : String) (report : Bool) :
    ∀ base : SimpleBase, context.linkage.Sees context'.linkage f g (base.references location) →
      SameFrom v (baseShape context expand f typeName report base)
        (baseShape context' expand' g typeName report base)
  | .inline type, hs => by
      unfold baseShape
      exact sameFrom_shapeWith rooms hf typeName report type hs
  | .named name, hs => by
      unfold baseShape
      exact sameFrom_namedBase rooms hf hs (List.mem_singleton_self _) typeName

theorem sameFrom_baseSchemaWith (rooms : SimpleRooms context context' v n n' expand expand')
    (hf : context.Twins context' f g) (typeName : String) (report : Bool) :
    ∀ base : SimpleBase, context.linkage.Sees context'.linkage f g (base.references location) →
      SameFrom v (baseSchemaWith context expand f typeName report base)
        (baseSchemaWith context' expand' g typeName report base)
  | .named name, hs => by
      unfold baseSchemaWith
      exact sameFrom_typeReference rooms.same hf hs (List.mem_singleton_self _) _
  | .inline type, hs => by
      unfold baseSchemaWith
      exact .map _ (sameFrom_shapeWith rooms hf typeName report type hs)

theorem sameFrom_memberSchemas (rooms : SimpleRooms context context' v n n' expand expand')
    (hf : context.Twins context' f g) (typeName : String) (report : Bool) :
    ∀ members : List SimpleBase,
      context.linkage.Sees context'.linkage f g (basesReferences location members) →
      SameFrom v (memberSchemas context expand f typeName report members)
        (memberSchemas context' expand' g typeName report members)
  | [], _ => by
      unfold memberSchemas
      exact .pure _
  | m :: rest, hs => by
      unfold memberSchemas
      exact .bind (sameFrom_baseSchemaWith rooms hf typeName report m hs.left) fun _ =>
        .map _ (sameFrom_memberSchemas rooms hf typeName report rest hs.right)

end

end

section

variable (h : context.Corresponds context')
include h

theorem simpleAlike_expandSimple : ∀ n n' : Nat,
    SimpleAlike context context' n n' (expandSimple context n) (expandSimple context' n')
  | 0, _, v, _, _, _, hi, hfits, _, _, _, _ => by
      have hle := hi.length_le .simple .types rfl
      simp only [Expandable.of, Row.types] at hle
      omega
  | _ + 1, 0, v, _, _, _, hi, _, hfits', _, _, _ => by
      have hle := (h.linkage.inside hi).length_le .simple .types rfl
      simp only [Expandable.of, Row.types] at hle
      omega
  | n + 1, n' + 1, v, a, b, type, hi, hfits, hfits', hab, hd, htype => by
      have hs := h.linkage.sees_type hab hd
      rw [htype] at hs
      unfold expandSimple
      rw [← hab.declaration]
      exact sameFrom_shapeWith
        ⟨h, hi, simpleAlike_expandSimple n n', by omega, by omega⟩ hab.twins _ _ type hs

variable (hi : Inside context.linkage v) (hf : context.Twins context' f g)
include hi hf

theorem sameFrom_simpleShape {type : SimpleType}
    (hs : context.linkage.Sees context'.linkage f g (type.references location))
    (typeName : String) (report : Bool) :
    SameFrom v (simpleShape context f typeName report type)
      (simpleShape context' g typeName report type) :=
  sameFrom_shapeWith ⟨h, hi, simpleAlike_expandSimple h _ _, by rw [simpleDepth]; omega,
    by rw [simpleDepth]; omega⟩ hf typeName report type hs

theorem sameFrom_simpleSchema {type : SimpleType}
    (hs : context.linkage.Sees context'.linkage f g (type.references location))
    (typeName : String) (report : Bool) :
    SameFrom v (simpleSchema context f typeName report type)
      (simpleSchema context' g typeName report type) :=
  .map _ (sameFrom_simpleShape h hi hf hs typeName report)

theorem sameFrom_baseSchema {base : SimpleBase}
    (hs : context.linkage.Sees context'.linkage f g (base.references location))
    (typeName : String) :
    SameFrom v (baseSchema context f typeName base) (baseSchema context' g typeName base) := by
  cases base with
  | named name => exact sameFrom_typeReference h hf hs (List.mem_singleton_self _) _
  | inline type => exact sameFrom_simpleSchema h hi hf hs typeName true

theorem sameFrom_spaceOf? {type : SimpleType}
    (hs : context.linkage.Sees context'.linkage f g (type.references location)) :
    SameFrom v (spaceOf? context f type) (spaceOf? context' g type) :=
  .tryCatch (.map _ (sameFrom_simpleShape h hi hf hs "" false)) fun _ => .pure _

omit hf in
theorem sameFrom_namedSpace? {name : QName}
    (hs : context.linkage.Sees context'.linkage f g refs) (hr : ⟨.type, name, location⟩ ∈ refs) :
    SameFrom v (namedSpace? context f name) (namedSpace? context' g name) := by
  unfold namedSpace?
  refine .ite (fun _ => .pure _) fun hb => ?_
  have hrel := h.linkage.type? hs hr (Bool.eq_false_iff.2 hb)
  generalize ha : context.linkage.type? f name = found, context'.linkage.type? g name = found'
    at hrel
  cases hrel with
  | none => exact .pure _
  | @some a b hab =>
      have ha : context.linkage.lookup? .types f name = some a := ha
      obtain ⟨-, hd, -⟩ := h.linkage.linked.found ha
      have hs := h.linkage.sees_type hab hd
      dsimp only
      rw [← hab.declaration]
      cases hdef : a.declaration.definition with
      | simple type =>
          rw [hdef] at hs
          exact sameFrom_spaceOf? h hi hab.twins hs
      | complex type => exact .pure _

theorem sameFrom_literalSpace? {type : ElementType}
    (hs : context.linkage.Sees context'.linkage f g (type.references location)) :
    SameFrom v (literalSpace? context f type) (literalSpace? context' g type) := by
  cases type with
  | named name => exact sameFrom_namedSpace? h hi hs (List.mem_singleton_self _)
  | simple type => exact sameFrom_spaceOf? h hi hf hs
  | complex type => exact .pure _
  | any => exact .pure _

/-! ### Attributes -/

theorem sameFrom_attributeSchema {declaration : Attribute}
    (hs : context.linkage.Sees context'.linkage f g (declaration.references location))
    (default fixed : Option String) :
    SameFrom v (attributeSchema context f declaration default fixed)
      (attributeSchema context' g declaration default fixed) := by
  unfold attributeSchema
  unfold Attribute.references at hs
  rcases htype : declaration.type with _ | name | type
  · exact .bind (.pure _) fun _ => .bind (.pure _) fun _ => .pure _
  · rw [htype] at hs
    exact .bind (sameFrom_baseSchema h hi hf hs _) fun _ =>
      .bind (sameFrom_namedSpace? h hi hs (List.mem_singleton_self _)) fun _ => .pure _
  · rw [htype] at hs
    have hbase : context.linkage.Sees context'.linkage f g
        ((SimpleBase.inline type).references location) := hs
    exact .bind (sameFrom_baseSchema h hi hf hbase _) fun _ =>
      .bind (sameFrom_spaceOf? h hi hf hs) fun _ => .pure _

end

/-- Attribute groups of which there is room for so many on either side are expanded alike. -/
def AttributesAlike (context context' : Context) (n n' : Nat)
    (expand expand' : AttributeExpansion) : Prop :=
  ∀ (v : Visited) (site site' : Site) (a b : Located AttributeGroup) (shape : Shape),
    Inside context.linkage v →
    context.linkage.declarations.attributeGroups.length + 1 ≤ n + v.attributeGroups.length →
    context'.linkage.declarations.attributeGroups.length + 1 ≤ n' + v.attributeGroups.length →
    site.Beside context context' site' → site.scope = a.file → site'.scope = b.file →
    context.linkage.Stands context'.linkage a b →
    a.declaration ∈ a.file.schema.attributeGroups →
    SameFrom v (expand site a shape) (expand' site' b shape)

/-- There is room on both sides for every attribute group that the conversions are not inside of. -/
structure AttributeRooms (context context' : Context) (v : Visited) (n n' : Nat)
    (expand expand' : AttributeExpansion) : Prop where
  same : context.Corresponds context'
  inside : Inside context.linkage v
  alike : AttributesAlike context context' n n' expand expand'
  fits : context.linkage.declarations.attributeGroups.length ≤ n + v.attributeGroups.length
  fits' : context'.linkage.declarations.attributeGroups.length ≤ n' + v.attributeGroups.length

section

variable {expand expand' : AttributeExpansion} {site site' : Site}

theorem sameFrom_collectUse (rooms : AttributeRooms context context' v n n' expand expand')
    (hsite : site.Beside context context' site') (shape : Shape) : ∀ use : AttributeUse,
      context.linkage.Sees context'.linkage site.scope site'.scope (use.references location) →
      SameFrom v (collectUse context expand site shape use)
        (collectUse context' expand' site' shape use)
  | .declared declaration use, hs => by
      unfold collectUse
      dsimp only
      rw [rooms.same.propertyName hsite.scope]
      refine .ite (fun _ => .pure _) fun _ => ?_
      refine .bind (sameFrom_attributeSchema rooms.same rooms.inside hsite.scope hs none none)
        fun _ => ?_
      exact .of_eq (isClosed_steady.addAttribute context site _ _ shape)
        (rooms.same.addAttribute hsite _ _ shape)
  | .reference reference use default fixed, hs => by
      unfold collectUse
      dsimp only
      rw [hsite.location]
      refine .found_bind hsite.scope.filename
        (rooms.same.linkage.attribute? hs (List.mem_singleton_self _)) fun a b ha hab => ?_
      have ha : context.linkage.lookup? .attributes site.scope reference = some a := ha
      obtain ⟨-, hd, -⟩ := rooms.same.linkage.linked.found ha
      rw [rooms.same.propertyName hab.twins, ← hab.declaration]
      refine .ite (fun _ => .pure _) fun _ => ?_
      refine .bind (sameFrom_attributeSchema rooms.same rooms.inside hab.twins
        (rooms.same.linkage.sees_attribute hab hd) default fixed) fun _ => ?_
      exact .of_eq (isClosed_steady.addAttribute context site _ _ shape)
        (rooms.same.addAttribute hsite _ _ shape)
  | .group reference, hs => by
      unfold collectUse
      dsimp only
      rw [hsite.location]
      refine .found_bind hsite.scope.filename
        (rooms.same.linkage.attributeGroup? hs (List.mem_singleton_self _)) fun a b ha hab => ?_
      have ha : context.linkage.lookup? .attributeGroups site.scope reference = some a := ha
      obtain ⟨-, hd, -⟩ := rooms.same.linkage.linked.found ha
      rw [← hab.declaration]
      refine .bind (.visiting hsite.scope.filename fun hn => ?_) fun shape => ?_
      · exact rooms.alike _ _ _ a b shape (rooms.inside.enter
          (rooms.same.linkage.linked.contains (.inr (by decide)) ha) hn)
          (fits_enter .attributeGroup rooms.fits) (fits_enter .attributeGroup rooms.fits')
          ⟨hab.twins, rfl⟩ rfl rfl hab hd
      · split <;> exact .pure _

theorem sameFrom_collectUses (rooms : AttributeRooms context context' v n n' expand expand')
    (hsite : site.Beside context context' site') : ∀ (shape : Shape) (uses : List AttributeUse),
      context.linkage.Sees context'.linkage site.scope site'.scope
        (usesReferences location uses) →
      SameFrom v (collectUses context expand site shape uses)
        (collectUses context' expand' site' shape uses)
  | shape, [], _ => .pure shape
  | shape, use :: rest, hs =>
    .bind (sameFrom_collectUse rooms hsite shape use hs.left) fun shape =>
      sameFrom_collectUses rooms hsite shape rest hs.right

theorem attributesAlike_expandAttributes (h : context.Corresponds context') : ∀ n n' : Nat,
    AttributesAlike context context' n n' (expandAttributes context n)
      (expandAttributes context' n')
  | 0, _, v, _, _, _, _, _, hi, hfits, _, _, _, _, _, _ => by
      have hle := hi.length_le .attributeGroup .attributeGroups rfl
      simp only [Expandable.of, Row.attributeGroups] at hle
      omega
  | _ + 1, 0, v, _, _, _, _, _, hi, _, hfits', _, _, _, _, _ => by
      have hle := (h.linkage.inside hi).length_le .attributeGroup .attributeGroups rfl
      simp only [Expandable.of, Row.attributeGroups] at hle
      omega
  | n + 1, n' + 1, v, site, site', a, b, shape, hi, hfits, hfits', hsite, ha, hb, hab, hd => by
      have hs := h.linkage.sees_attributeGroup hab hd
      rw [← ha, ← hb] at hs
      unfold expandAttributes
      rw [← hab.declaration]
      exact sameFrom_collectUses
        ⟨h, hi, attributesAlike_expandAttributes h n n', by omega, by omega⟩ hsite shape _ hs

theorem sameFrom_collectAttributes (h : context.Corresponds context')
    (hi : Inside context.linkage v) (hsite : site.Beside context context' site')
    {uses : List AttributeUse} (hs : context.linkage.Sees context'.linkage site.scope site'.scope
      (usesReferences location uses)) (shape : Shape) :
    SameFrom v (collectAttributes context site uses shape)
      (collectAttributes context' site' uses shape) :=
  sameFrom_collectUses ⟨h, hi, attributesAlike_expandAttributes h _ _,
    by rw [attributeDepth]; omega, by rw [attributeDepth]; omega⟩ hsite shape uses hs

end

end Conversion

end Crosswalk
