import Crosswalk.Conversion.File
import Crosswalk.Proofs.Counterpart.Content

/-!
# Conversions end

Bases, model groups and attribute groups are expanded where they are used, and what they refer to in
turn inside of them. A conversion remembers what it is inside of and expands nothing within itself,
so that each expansion inside of another one leaves fewer declarations that can still be expanded.
The depth that a conversion is given is that number of declarations, and it is no limit: whatever is
done with a declaration that lies deeper, the results are the same, for none does.

A declaration that lies deeper is reported as a cycle. Here something else may be done with it:
`beyond` stands for whatever a conversion would do that goes on from there. The conversions of the
library are those whose end is a cycle.
-/

namespace Crosswalk

/-! ### Something else at the end of the depth -/

namespace Conversion

/-- Flattens named simple types that lie at most so deep inside each other, and does something else
with those that lie deeper. -/
def expandSimpleTo (context : Context) (beyond : SimpleExpansion) : Nat → SimpleExpansion
  | 0 => beyond
  | depth + 1 => fun located type =>
    shapeWith context (expandSimpleTo context beyond depth) located.file
      located.declaration.name.name false type

/-- Expands attribute groups that lie at most so deep inside each other, and does something else
with those that lie deeper. -/
def expandAttributesTo (context : Context) (beyond : AttributeExpansion) :
    Nat → AttributeExpansion
  | 0 => beyond
  | depth + 1 => fun site located shape =>
    collectUses context (expandAttributesTo context beyond depth) site shape
      located.declaration.attributes

/-- Expands bases and groups that lie at most so deep inside each other, and does something else
with those that lie deeper. -/
def expansionsTo (context : Context) (beyond : Expansions) : Nat → Expansions
  | 0 => beyond
  | depth + 1 =>
    { base := fun site inheritance located type shape =>
        collectComplex context (expansionsTo context beyond depth)
          { site with scope := located.file } inheritance shape type
      group := fun site located bounds nested shape =>
        collectGroup context (expansionsTo context beyond depth)
          { site with scope := located.file } bounds nested shape located.declaration.group }

theorem expandSimple_eq (context : Context) (depth : Nat) :
    expandSimple context depth = expandSimpleTo context (expandSimple context 0) depth := by
  induction depth with
  | zero => rfl
  | succ depth ih =>
      funext located type
      rw [expandSimple, expandSimpleTo, ih]

theorem expandAttributes_eq (context : Context) (depth : Nat) :
    expandAttributes context depth =
      expandAttributesTo context (expandAttributes context 0) depth := by
  induction depth with
  | zero => rfl
  | succ depth ih =>
      funext site located shape
      rw [expandAttributes, expandAttributesTo, ih]

theorem expansions_eq (context : Context) (depth : Nat) :
    expansions context depth = expansionsTo context (expansions context 0) depth := by
  induction depth with
  | zero => rfl
  | succ depth ih =>
      rw [expansionsTo, ← ih]
      rfl

/-! ### The declarations of a file -/

/-- The definition of a named type, with these expansions. -/
def typeDefinitionBy (context : Context) (expand : Expansions) (type : NamedType) :
    Conversion (String × Json) := do
  let name := type.name.name
  let schema ← match type.definition with
    | .simple simple =>
      visiting .simple context.file type.name (simpleSchema context context.file name true simple)
    | .complex complex =>
      visiting .complex context.file type.name do
        let site : Site := ⟨context.file, "complexType " ++ name⟩
        let shape ← collectComplex context expand site .everything {} complex
        return objectSchema context shape
  return (name, withKeywords schema (descriptionOf type.documentation))

/-- The definition of a model group, with these expansions. -/
def groupDefinitionBy (context : Context) (expand : Expansions) (group : NamedGroup) :
    Conversion (String × Json) := do
  let site : Site := ⟨context.file, "group " ++ group.name.name⟩
  let shape ← visiting .group context.file group.name
    (collectGroup context expand site .once true {} group.group)
  return (groupKey group.name.name,
    withKeywords (shape.schema false context.options.textProperty)
      (descriptionOf group.documentation))

/-- The property of a global element, with these expansions. -/
def elementPropertyBy (context : Context) (expand : Expansions) (element : Element) :
    Conversion (String × Json) := do
  let name := element.name.name
  let site : Site := ⟨context.file, "element " ++ name⟩
  let schema ← elementSchema context expand site element
  return (name, schema)

/-- Converts the declarations of a file, with these expansions. -/
def convertFileBy (context : Context) (expand : Expansions) : Converted × List Problem :=
  let schema := context.file.schema
  let types := convertEach (typeDefinitionBy context expand) schema.types []
  let reused := schema.groups.filter fun g => context.linkage.isReused g.name
  let groups := convertEach (groupDefinitionBy context expand) reused types.diagnostics
  let elements := convertEach (elementPropertyBy context expand) schema.elements groups.diagnostics
  ({ definitions := Table.ofList (types.schemas ++ groups.schemas)
     elements := elements.schemas
     types := types.schemas.map (·.1) },
    types.errors ++ groups.errors ++ elements.errors ++ elements.diagnostics)

theorem convertFile_eq (context : Context) :
    convertFile context = convertFileBy context (allExpansions context) := rfl

end Conversion

namespace Conversion

open Declarations

variable {context : Context} {v : Visited}

/-! ### What can still be expanded -/

/-- How many of some names are not in a list. -/
def vacancies (names inside : List QName) : Nat := (names.filter (· ∉ inside)).length

theorem vacancies_le_length (names inside : List QName) : vacancies names inside ≤ names.length :=
  List.length_filter_le _ _

/-- A name that is added to the list leaves fewer. -/
theorem vacancies_cons_lt {names inside : List QName} {q : QName} (hq : q ∈ names)
    (hn : q ∉ inside) : vacancies names (q :: inside) < vacancies names inside := by
  have hfilter : names.filter (· ∉ q :: inside) =
      (names.filter (· ∉ inside)).filter (· ≠ q) := by
    rw [List.filter_filter]
    refine List.filter_congr fun n _ => ?_
    simp [List.mem_cons, not_or]
  rw [vacancies, hfilter, vacancies, List.length_filter_lt_length_iff_exists]
  exact ⟨q, List.mem_filter.2 ⟨hq, by simpa using hn⟩, by simp⟩

/-- The name of a declaration that was found is one of those declared. -/
theorem mem_keys_of_lookup? {α : Type} {l : Linkage} (hlinked : l.IsLinked) {row : Row α}
    {file : File} {name : QName} {located : Located α}
    (hb : name.isBuiltin = false ∨ row.kind ≠ .type)
    (hl : l.lookup? row file name = some located) :
    row.name located.declaration ∈ Table.keys (row.table l.declarations) := by
  rw [← Table.contains_iff, ← row.contains_table]
  exact hlinked.contains hb hl

namespace SameFrom

variable {α β : Type} {c d : Conversion α}

theorem refl (hc : Steady c) : SameFrom v c c := of_eq hc rfl

/-- What goes on the same way wherever something is found. -/
theorem found {scope : File} {referencing : String} {name : QName} {result : Option α}
    {f g : α → Conversion β} (h : ∀ a, result = some a → SameFrom v (f a) (g a)) :
    SameFrom v (Conversion.found scope referencing name result >>= f)
      (Conversion.found scope referencing name result >>= g) := by
  cases result with
  | none => exact throw _
  | some a => exact h a rfl

/-- Conversions that are the same wherever they are are equal. -/
theorem eq_of_forall (h : ∀ v, SameFrom v c d) : c = d :=
  funext fun s => (h s.visited s rfl).1

end SameFrom

/-! ### Simple types -/

/-- Simple types that the conversion is not inside of are expanded in the same way. -/
def SimpleSame (context : Context) (v : Visited) (expand expand' : SimpleExpansion) : Prop :=
  ∀ (located : Located NamedType) (type : SimpleType),
    located.declaration.name ∈ Table.keys context.linkage.declarations.types →
    located.declaration.name ∉ v.simple →
      SameFrom (Expandable.simple.set v (located.declaration.name :: v.simple))
        (expand located type) (expand' located type)

namespace SimpleSame

variable {expand expand' : SimpleExpansion}

theorem namedBase (hlinked : context.linkage.IsLinked) (h : SimpleSame context v expand expand')
    (scope : File) (typeName : String) (name : QName) :
    SameFrom v (namedBase context expand scope typeName name)
      (Conversion.namedBase context expand' scope typeName name) := by
  have builtin := fun name => SameFrom.refl (v := v)
    ((isClosed_steady : IsClosed context Steady).builtinShape scope typeName name)
  unfold Conversion.namedBase
  refine .ite (fun _ => builtin name) fun hb => .found fun located hl => ?_
  have hl : context.linkage.lookup? .types scope name = some located := hl
  split
  · exact .visiting rfl fun hn =>
      h located _ (mem_keys_of_lookup? hlinked (.inl (Bool.eq_false_iff.2 hb)) hl) hn
  · exact .bind (.refl (isClosed_steady.diagnose context scope _ _)) fun _ => builtin _

mutual

theorem shapeWith (hlinked : context.linkage.IsLinked) (h : SimpleSame context v expand expand')
    (scope : File) (typeName : String) (report : Bool) : ∀ type : SimpleType,
    SameFrom v (shapeWith context expand scope typeName report type)
      (Conversion.shapeWith context expand' scope typeName report type)
  | .restriction base facets => by
      unfold Conversion.shapeWith
      refine .bind (baseShape hlinked h scope typeName report base) fun inherited => .refl ?_
      cases report with
      | true => exact steady_map _ (isClosed_steady.recordIssues context scope typeName _)
      | false => exact steady_pure _
  | .list item => by
      unfold Conversion.shapeWith
      exact .map _ (baseSchemaWith hlinked h scope typeName report item)
  | .union members => by
      unfold Conversion.shapeWith
      exact .map _ (memberSchemas hlinked h scope typeName report members)

theorem baseShape (hlinked : context.linkage.IsLinked) (h : SimpleSame context v expand expand')
    (scope : File) (typeName : String) (report : Bool) : ∀ base : SimpleBase,
    SameFrom v (baseShape context expand scope typeName report base)
      (Conversion.baseShape context expand' scope typeName report base)
  | .inline type => by
      unfold Conversion.baseShape
      exact shapeWith hlinked h scope typeName report type
  | .named name => by
      unfold Conversion.baseShape
      exact h.namedBase hlinked scope typeName name

theorem baseSchemaWith (hlinked : context.linkage.IsLinked) (h : SimpleSame context v expand expand')
    (scope : File) (typeName : String) (report : Bool) : ∀ base : SimpleBase,
    SameFrom v (baseSchemaWith context expand scope typeName report base)
      (Conversion.baseSchemaWith context expand' scope typeName report base)
  | .named name => by
      unfold Conversion.baseSchemaWith
      exact .refl (isClosed_steady.typeReference context scope name _)
  | .inline type => by
      unfold Conversion.baseSchemaWith
      exact .map _ (shapeWith hlinked h scope typeName report type)

theorem memberSchemas (hlinked : context.linkage.IsLinked) (h : SimpleSame context v expand expand')
    (scope : File) (typeName : String) (report : Bool) :
    ∀ members : List SimpleBase,
      SameFrom v (memberSchemas context expand scope typeName report members)
        (Conversion.memberSchemas context expand' scope typeName report members)
  | [] => by
      unfold Conversion.memberSchemas
      exact .pure _
  | m :: rest => by
      unfold Conversion.memberSchemas
      exact .bind (baseSchemaWith hlinked h scope typeName report m) fun _ =>
        .map _ (memberSchemas hlinked h scope typeName report rest)

end

end SimpleSame

section

variable (hlinked : context.linkage.IsLinked)
include hlinked

theorem simpleSame_expandSimpleTo (beyond beyond' : SimpleExpansion) : ∀ (depth : Nat)
    (v : Visited), vacancies (Table.keys context.linkage.declarations.types) v.simple ≤ depth →
      SimpleSame context v (expandSimpleTo context beyond depth)
        (expandSimpleTo context beyond' depth)
  | depth, v, hroom, located, type, hc, hn => by
      have hfewer := vacancies_cons_lt hc hn
      cases depth with
      | zero => exact absurd (Nat.lt_of_lt_of_le hfewer hroom) (Nat.not_lt_zero _)
      | succ depth =>
          exact (simpleSame_expandSimpleTo beyond beyond' depth _
            (Nat.le_of_lt_succ (Nat.lt_of_lt_of_le hfewer hroom))).shapeWith hlinked _ _ false type

/-- Whatever is done with simple types that lie deeper than there are types, they are flattened in
the same way. -/
theorem shapeWith_expandSimpleTo (beyond : SimpleExpansion) :
    shapeWith context (expandSimpleTo context beyond (simpleDepth context)) =
      simpleShape context := by
  funext scope typeName report type
  rw [simpleShape, expandSimple_eq]
  refine SameFrom.eq_of_forall fun v => SimpleSame.shapeWith hlinked
    (simpleSame_expandSimpleTo hlinked _ _ _ v ?_) scope typeName report type
  refine Nat.le_trans (vacancies_le_length _ _) ?_
  rw [simpleDepth, Table.keys, List.length_map]
  exact Nat.le_succ _

end

/-! ### Attributes -/

/-- Attribute groups that the conversion is not inside of are expanded in the same way. -/
def AttributesSame (context : Context) (v : Visited) (expand expand' : AttributeExpansion) : Prop :=
  ∀ (site : Site) (located : Located AttributeGroup) (shape : Shape),
    located.declaration.name ∈ Table.keys context.linkage.declarations.attributeGroups →
    located.declaration.name ∉ v.attributeGroups →
      SameFrom (Expandable.attributeGroup.set v (located.declaration.name :: v.attributeGroups))
        (expand site located shape) (expand' site located shape)

section

variable {expand expand' : AttributeExpansion} (hlinked : context.linkage.IsLinked)
include hlinked

namespace AttributesSame

variable (h : AttributesSame context v expand expand')
include h

theorem collectUse (site : Site) (shape : Shape) : ∀ use : AttributeUse,
    SameFrom v (collectUse context expand site shape use)
      (Conversion.collectUse context expand' site shape use)
  | .declared declaration use => by
      unfold Conversion.collectUse
      exact .ite (fun _ => .pure _) fun _ => .refl (steady_bind
        (isClosed_steady.attributeSchema context _ _ _ _) fun _ =>
          isClosed_steady.addAttribute context site _ _ shape)
  | .reference reference use default fixed => by
      unfold Conversion.collectUse
      exact .found fun located _ => .ite (fun _ => .pure _) fun _ => .refl (steady_bind
        (isClosed_steady.attributeSchema context _ _ _ _) fun _ =>
          isClosed_steady.addAttribute context site _ _ shape)
  | .group reference => by
      unfold Conversion.collectUse
      refine .found fun located hl => .map _ (.visiting rfl fun hn => ?_)
      have hl : context.linkage.lookup? .attributeGroups site.scope reference = some located := hl
      exact h _ located shape (mem_keys_of_lookup? hlinked (.inr (by decide)) hl) hn

theorem collectUses (site : Site) : ∀ (shape : Shape) (uses : List AttributeUse),
    SameFrom v (collectUses context expand site shape uses)
      (Conversion.collectUses context expand' site shape uses)
  | shape, [] => .pure shape
  | shape, use :: rest =>
    .bind (h.collectUse hlinked site shape use) fun shape => collectUses site shape rest

end AttributesSame

theorem attributesSame_expandAttributesTo (beyond beyond' : AttributeExpansion) :
    ∀ (depth : Nat) (v : Visited),
      vacancies (Table.keys context.linkage.declarations.attributeGroups) v.attributeGroups ≤ depth →
        AttributesSame context v (expandAttributesTo context beyond depth)
          (expandAttributesTo context beyond' depth)
  | depth, v, hroom, site, located, shape, hc, hn => by
      have hfewer := vacancies_cons_lt hc hn
      cases depth with
      | zero => exact absurd (Nat.lt_of_lt_of_le hfewer hroom) (Nat.not_lt_zero _)
      | succ depth =>
          exact (attributesSame_expandAttributesTo beyond beyond' depth _
            (Nat.le_of_lt_succ (Nat.lt_of_lt_of_le hfewer hroom))).collectUses hlinked site shape _

/-- Whatever is done with attribute groups that lie deeper than there are attribute groups, the
attributes of a type are taken in the same way. -/
theorem collectUses_expandAttributesTo (beyond : AttributeExpansion) (site : Site)
    (uses : List AttributeUse) (shape : Shape) :
    collectUses context (expandAttributesTo context beyond (attributeDepth context)) site shape
        uses = collectAttributes context site uses shape := by
  rw [collectAttributes, expandAttributes_eq]
  refine SameFrom.eq_of_forall fun v => AttributesSame.collectUses hlinked
    (attributesSame_expandAttributesTo hlinked _ _ _ v ?_) site shape uses
  refine Nat.le_trans (vacancies_le_length _ _) ?_
  rw [attributeDepth, Table.keys, List.length_map]
  exact Nat.le_succ _

end

/-! ### Content -/

/-- Complex types and model groups that the conversion is not inside of are expanded in the same
way. -/
structure ContentSame (context : Context) (v : Visited) (expand expand' : Expansions) : Prop where
  base : ∀ (site : Site) (inheritance : Inheritance) (located : Located NamedType)
    (type : ComplexType) (shape : Shape),
    located.declaration.name ∈ Table.keys context.linkage.declarations.types →
    located.declaration.name ∉ v.complex →
      SameFrom (Expandable.complex.set v (located.declaration.name :: v.complex))
        (expand.base site inheritance located type shape)
        (expand'.base site inheritance located type shape)
  group : ∀ (site : Site) (located : Located NamedGroup) (bounds : Bounds) (nested : Bool)
    (shape : Shape),
    located.declaration.name ∈ Table.keys context.linkage.declarations.groups →
    located.declaration.name ∉ v.groups →
      SameFrom (Expandable.group.set v (located.declaration.name :: v.groups))
        (expand.group site located bounds nested shape)
        (expand'.group site located bounds nested shape)

namespace ContentSame

variable {expand expand' : Expansions}

section

variable (hlinked : context.linkage.IsLinked) (h : ContentSame context v expand expand')
include hlinked h

theorem collectBase (site : Site) (inheritance : Inheritance) (base : QName) (shape : Shape) :
    SameFrom v (collectBase context expand site inheritance base shape)
      (Conversion.collectBase context expand' site inheritance base shape) := by
  have diagnosed := fun construct => SameFrom.refl (v := v)
    (steady_map (fun _ => shape) (isClosed_steady.site_diagnose context site construct))
  unfold Conversion.collectBase
  refine .ite (fun _ => .ite (fun _ => .pure shape) fun _ => diagnosed _)
    fun hb => .found fun located hl => ?_
  have hl : context.linkage.lookup? .types site.scope base = some located := hl
  split
  · exact .visiting rfl fun hn => h.base site inheritance located _ shape
      (mem_keys_of_lookup? hlinked (.inl (Bool.eq_false_iff.2 hb)) hl) hn
  · exact diagnosed _

theorem collectText (site : Site) (base : QName) (derivation : Derivation) (facets : List Facet)
    (shape : Shape) :
    SameFrom v (collectText context expand site base derivation facets shape)
      (Conversion.collectText context expand' site base derivation facets shape) := by
  rw [collectText_eq, collectText_eq]
  dsimp only
  have character := SameFrom.refl (v := v) (steady_map (fun text => { shape with text := some text })
    (isClosed_steady.textSchema context site base
      (if derivation = .restriction then facets else [])))
  refine .ite (fun _ => character) fun hb => .found fun located hl => ?_
  have hl : context.linkage.lookup? .types site.scope base = some located := hl
  split
  · refine .bind (.visiting rfl fun hn => h.base site .everything located _ shape
      (mem_keys_of_lookup? hlinked (.inl (Bool.eq_false_iff.2 hb)) hl) hn) fun shape => ?_
    exact .ite (fun _ => .pure shape) fun _ =>
      .refl (isClosed_steady.narrowText context site located _ shape)
  · exact character

theorem collectGroupRef (site : Site) (reference : QName) (bounds : Bounds) (nested : Bool)
    (shape : Shape) :
    SameFrom v (collectGroupRef context expand site reference bounds nested shape)
      (Conversion.collectGroupRef context expand' site reference bounds nested shape) := by
  unfold Conversion.collectGroupRef
  refine .found fun located hl => .visiting rfl fun hn => ?_
  have hl : context.linkage.lookup? .groups site.scope reference = some located := hl
  have hq := mem_keys_of_lookup? hlinked (.inr (by decide)) hl
  exact .ite (fun _ => .map _ (h.group site located .once true {} hq hn))
    fun _ => h.group site located bounds nested shape hq hn

end

mutual

theorem collectComplex (hlinked : context.linkage.IsLinked)
    (h : ContentSame context v expand expand') (site : Site) (inheritance : Inheritance)
    (shape : Shape) : ∀ type : ComplexType,
      SameFrom v (collectComplex context expand site inheritance shape type)
        (Conversion.collectComplex context expand' site inheritance shape type)
  | ⟨content, attributes, anyAttribute, mixed⟩ => by
      unfold Conversion.collectComplex
      have collected := SameFrom.bind (collectContent hlinked h site inheritance shape content)
        fun shape => SameFrom.map (fun s => if anyAttribute then { s with isOpen := true } else s)
          (.refl (isClosed_steady.collectAttributes context site attributes shape))
      exact .ite (fun _ => .bind (.refl (isClosed_steady.site_diagnose context site _))
        fun _ => collected) fun _ => collected

theorem collectContent (hlinked : context.linkage.IsLinked)
    (h : ContentSame context v expand expand') (site : Site) (inheritance : Inheritance)
    (shape : Shape) : ∀ content : Content,
      SameFrom v (collectContent context expand site inheritance shape content)
        (Conversion.collectContent context expand' site inheritance shape content)
  | .empty => by
      unfold Conversion.collectContent
      exact .pure shape
  | .particle p => by
      unfold Conversion.collectContent
      exact .ite (fun _ => collectParticle hlinked h site .once false shape p)
        fun _ => .pure shape
  | .extension base none => by
      unfold Conversion.collectContent
      exact h.collectBase hlinked site inheritance base shape
  | .extension base (some p) => by
      unfold Conversion.collectContent
      refine .bind (h.collectBase hlinked site inheritance base shape) fun shape => ?_
      exact .ite (fun _ => collectParticle hlinked h site .once false shape p)
        fun _ => .pure shape
  | .restriction base none => by
      unfold Conversion.collectContent
      exact h.collectBase hlinked site .attributes base shape
  | .restriction base (some p) => by
      unfold Conversion.collectContent
      refine .bind (h.collectBase hlinked site .attributes base shape) fun shape => ?_
      exact .ite (fun _ => collectParticle hlinked h site .once false shape p)
        fun _ => .pure shape
  | .simple base derivation facets => by
      unfold Conversion.collectContent
      exact h.collectText hlinked site base derivation facets shape

theorem collectParticle (hlinked : context.linkage.IsLinked)
    (h : ContentSame context v expand expand') (site : Site) (outer : Bounds) (nested : Bool)
    (shape : Shape) : ∀ p : Particle,
      SameFrom v (collectParticle context expand site outer nested shape p)
        (Conversion.collectParticle context expand' site outer nested shape p)
  | ⟨least, most, term⟩ => by
      unfold Conversion.collectParticle
      exact .ite (fun _ => .pure shape) fun _ => collectTerm hlinked h site _ nested shape term

theorem collectTerm (hlinked : context.linkage.IsLinked)
    (h : ContentSame context v expand expand') (site : Site) (bounds : Bounds) (nested : Bool)
    (shape : Shape) : ∀ term : Term,
      SameFrom v (collectTerm context expand site bounds nested shape term)
        (Conversion.collectTerm context expand' site bounds nested shape term)
  | .element declaration => by
      unfold Conversion.collectTerm
      exact .bind (elementSchema hlinked h _ declaration) fun _ =>
        .refl (isClosed_steady.addElement context site _ _ shape)
  | .elementRef reference => by
      unfold Conversion.collectTerm
      exact .refl (isClosed_steady.collectElementRef context site reference bounds shape)
  | .group group => by
      unfold Conversion.collectTerm
      exact collectGroup hlinked h site bounds nested shape group
  | .groupRef reference => by
      unfold Conversion.collectTerm
      exact h.collectGroupRef hlinked site reference bounds nested shape
  | .any => by
      unfold Conversion.collectTerm
      exact .pure _

theorem collectGroup (hlinked : context.linkage.IsLinked)
    (h : ContentSame context v expand expand') (site : Site) (bounds : Bounds) (nested : Bool)
    (shape : Shape) : ∀ group : ModelGroup,
      SameFrom v (collectGroup context expand site bounds nested shape group)
        (Conversion.collectGroup context expand' site bounds nested shape group)
  | ⟨.choice, particles⟩ => by
      unfold Conversion.collectGroup
      refine .ite (fun _ => ?_) fun _ => ?_
      · exact .bind (.refl (isClosed_steady.site_diagnose context site _)) fun _ =>
          collectParticles hlinked h site bounds.orNone nested shape particles
      · exact .bind (collectBranches hlinked h site _ particles) fun branches =>
          .refl (isClosed_steady.addChoice context site _ branches shape)
  | ⟨.sequence, particles⟩ => by
      unfold Conversion.collectGroup
      exact collectParticles hlinked h site bounds nested shape particles
  | ⟨.all, particles⟩ => by
      unfold Conversion.collectGroup
      exact collectParticles hlinked h site bounds nested shape particles

theorem collectParticles (hlinked : context.linkage.IsLinked)
    (h : ContentSame context v expand expand') (site : Site) (outer : Bounds) (nested : Bool)
    (shape : Shape) : ∀ particles : List Particle,
      SameFrom v (collectParticles context expand site outer nested shape particles)
        (Conversion.collectParticles context expand' site outer nested shape particles)
  | [] => by
      unfold Conversion.collectParticles
      exact .pure shape
  | p :: rest => by
      unfold Conversion.collectParticles
      exact .bind (collectParticle hlinked h site outer nested shape p) fun shape =>
        collectParticles hlinked h site outer nested shape rest

theorem collectBranches (hlinked : context.linkage.IsLinked)
    (h : ContentSame context v expand expand') (site : Site) (outer : Bounds) :
    ∀ particles : List Particle,
      SameFrom v (collectBranches context expand site outer particles)
        (Conversion.collectBranches context expand' site outer particles)
  | [] => by
      unfold Conversion.collectBranches
      exact .pure []
  | p :: rest => by
      unfold Conversion.collectBranches
      exact .bind (collectParticle hlinked h site outer true {} p) fun branch =>
        .map _ (collectBranches hlinked h site outer rest)

theorem elementSchema (hlinked : context.linkage.IsLinked)
    (h : ContentSame context v expand expand') (site : Site) : ∀ element : Element,
      SameFrom v (elementSchema context expand site element)
        (Conversion.elementSchema context expand' site element)
  | ⟨name, _, type, nillable, default, fixed, documentation⟩ => by
      unfold Conversion.elementSchema
      refine .bind (elementTypeSchema hlinked h site name.name type) fun base => .refl ?_
      exact steady_map _ (isClosed_steady.elementKeywords context
        (isClosed_steady.spaceOf? context) site type default fixed documentation)

theorem elementTypeSchema (hlinked : context.linkage.IsLinked)
    (h : ContentSame context v expand expand') (site : Site) (elementName : String) :
    ∀ type : ElementType,
      SameFrom v (elementTypeSchema context expand site elementName type)
        (Conversion.elementTypeSchema context expand' site elementName type)
  | .named name => by
      unfold Conversion.elementTypeSchema
      exact .refl (isClosed_steady.typeReference context site.scope name site.location)
  | .simple type => by
      unfold Conversion.elementTypeSchema
      exact .refl (isClosed_steady.simpleSchema context site.scope elementName true type)
  | .complex type => by
      unfold Conversion.elementTypeSchema
      exact .map _ (collectComplex hlinked h site .everything {} type)
  | .any => by
      unfold Conversion.elementTypeSchema
      exact .pure _

end

end ContentSame

section

variable (hlinked : context.linkage.IsLinked) (beyond : Expansions)
include hlinked

theorem contentSame_expansionsTo (beyond' : Expansions) : ∀ (depth : Nat) (v : Visited),
    vacancies (Table.keys context.linkage.declarations.types) v.complex +
      vacancies (Table.keys context.linkage.declarations.groups) v.groups ≤ depth →
    ContentSame context v (expansionsTo context beyond depth) (expansionsTo context beyond' depth)
  | 0, v, hroom =>
    { base := fun _ _ _ _ _ hq hn => absurd (vacancies_cons_lt hq hn) (by omega)
      group := fun _ _ _ _ _ hq hn => absurd (vacancies_cons_lt hq hn) (by omega) }
  | depth + 1, v, hroom =>
    { base := fun site inheritance located type shape hq hn => by
        have hfewer := vacancies_cons_lt hq hn
        refine (contentSame_expansionsTo beyond' depth _ ?_).collectComplex hlinked _ inheritance
          shape type
        simp only [Expandable.set]
        omega
      group := fun site located bounds nested shape hq hn => by
        have hfewer := vacancies_cons_lt hq hn
        refine (contentSame_expansionsTo beyond' depth _ ?_).collectGroup hlinked _ bounds nested
          shape _
        simp only [Expandable.set]
        omega }

theorem contentSame_allExpansions (v : Visited) :
    ContentSame context v (expansionsTo context beyond (expansionDepth context))
      (allExpansions context) := by
  rw [allExpansions, expansions_eq]
  refine contentSame_expansionsTo hlinked _ _ _ v ?_
  have htypes := vacancies_le_length (Table.keys context.linkage.declarations.types) v.complex
  have hgroups := vacancies_le_length (Table.keys context.linkage.declarations.groups) v.groups
  unfold expansionDepth Table.keys at *
  rw [List.length_map] at htypes hgroups
  omega

/-- Whatever is done with bases and groups that lie deeper than there are types and groups, complex
types are taken in the same way. -/
theorem collectComplex_expansionsTo :
    collectComplex context (expansionsTo context beyond (expansionDepth context)) =
      collectComplex context (allExpansions context) := by
  funext site inheritance shape type
  exact SameFrom.eq_of_forall fun v =>
    (contentSame_allExpansions hlinked beyond v).collectComplex hlinked site inheritance shape type

theorem collectGroup_expansionsTo :
    collectGroup context (expansionsTo context beyond (expansionDepth context)) =
      collectGroup context (allExpansions context) := by
  funext site bounds nested shape group
  exact SameFrom.eq_of_forall fun v =>
    (contentSame_allExpansions hlinked beyond v).collectGroup hlinked site bounds nested shape group

theorem elementSchema_expansionsTo :
    elementSchema context (expansionsTo context beyond (expansionDepth context)) =
      elementSchema context (allExpansions context) := by
  funext site element
  exact SameFrom.eq_of_forall fun v =>
    (contentSame_allExpansions hlinked beyond v).elementSchema hlinked site element

end

/-! ### Files -/

/-- Every conversion ends. Whatever is done beyond the depths that its expansions have, the outcome
is the same: for a simple type and for the attributes of a type wherever they are met, and for the
declarations of a file. So no base, restriction, model group or attribute group lies so deep,
whether or not the batch links: not even if a declaration refers back to one that it lies in. -/
theorem conversions_end (catalog : Catalog) (resolution : Resolution) (options : Options)
    (file : File) :
    let context : Context := ⟨(Linkage.ofCatalog catalog resolution).1, options, file⟩
    (∀ beyond, shapeWith context (expandSimpleTo context beyond (simpleDepth context)) =
      simpleShape context) ∧
    (∀ beyond site uses shape,
      collectUses context (expandAttributesTo context beyond (attributeDepth context)) site shape
        uses = collectAttributes context site uses shape) ∧
    ∀ beyond, convertFileBy context (expansionsTo context beyond (expansionDepth context)) =
      convertFile context := by
  have hlinked := Linkage.isLinked_ofCatalog catalog resolution
  refine ⟨shapeWith_expandSimpleTo hlinked, collectUses_expandAttributesTo hlinked,
    fun beyond => ?_⟩
  rw [convertFile_eq]
  unfold convertFileBy typeDefinitionBy groupDefinitionBy elementPropertyBy
  rw [collectComplex_expansionsTo hlinked, collectGroup_expansionsTo hlinked,
    elementSchema_expansionsTo hlinked]

end Conversion

end Crosswalk
