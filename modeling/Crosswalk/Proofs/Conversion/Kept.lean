import Crosswalk.Conversion.File
import Crosswalk.Proofs.Conversion.Standard

/-!
# Declarations and standards

What holds of simple types holds of attributes, of content, and of whole declarations: a standard
that is kept is met by all schemas that are made for them. Content is added to a shape that meets
the standard, and what it is added to goes on doing so. The branches of a choice and the members of
a referenced group start from empty shapes, in which there are no links to groups.
-/

namespace Crosswalk

namespace Conversion

/-! ### Remarks -/

theorem isRemark_descriptionOf (documentation : Option String) :
    ∀ member ∈ descriptionOf documentation, IsRemark member := by
  cases documentation with
  | none => exact fun _ h => absurd h List.not_mem_nil
  | some text => exact List.forall_mem_singleton.2 (.description text)

/-- The remarks on a declaration: its documentation, and literals in the space of its type. -/
theorem isRemark_all (documentation fixed default : Option String) (space : ValueSpace) :
    ∀ member ∈ descriptionOf documentation ++
      (fixed.toList.map fun text => ("const", space.literal text)) ++
      (default.toList.map fun text => ("default", space.literal text)), IsRemark member := by
  refine List.forall_mem_append.2 ⟨List.forall_mem_append.2 ⟨isRemark_descriptionOf _, ?_⟩, ?_⟩
  · exact List.forall_mem_map.2 fun text _ => .const space text
  · exact List.forall_mem_map.2 fun text _ => .default space text

theorem yields_elementKeywords (context : Context) (site : Site) (type : ElementType)
    (default fixed documentation : Option String) :
    Yields (elementKeywords context site type default fixed documentation)
      fun extras => ∀ member ∈ extras, IsRemark member := by
  have described := isRemark_descriptionOf documentation
  unfold elementKeywords
  split
  · exact Yields.pure described
  · refine Yields.bind_any fun space? => ?_
    split
    · exact Yields.pure (isRemark_all documentation fixed default _)
    · exact Yields.bind_any fun _ => Yields.pure described

namespace Standard

variable {context : Context} {S : Standard}

/-- Groups of attributes are expanded to what meets a standard. -/
def Extends (S : Standard) (expand : AttributeExpansion) : Prop :=
  ∀ site located {shape}, S.Knows located.declaration.details → S.Admits false shape →
    Yields (expand site located shape) (S.Admits false)

/-- Bases and groups are expanded to what meets a standard. -/
structure Expands (S : Standard) (expand : Expansions) : Prop where
  base : ∀ site inheritance located {type shape}, S.Knows type.details → S.Admits false shape →
    Yields (expand.base site inheritance located type shape) (S.Admits false)
  group : ∀ {nested} site located bounds {shape}, S.Knows located.declaration.details →
    S.Admits nested shape →
      Yields (expand.group site located bounds nested shape) (S.Admits nested)

namespace IsKept

variable (h : S.IsKept context)
include h

/-! ### Attributes -/

theorem attributeSchema (scope : File) {declaration : Attribute}
    (hk : S.Knows declaration.details) (default fixed : Option String) :
    Yields (Conversion.attributeSchema context scope declaration default fixed) S.schema := by
  have finish : ∀ {base : Json} (space : Option ValueSpace), S.schema base →
      S.schema (withKeywords base (descriptionOf declaration.documentation ++
        ((fixed.or declaration.fixed).toList.map fun text =>
          ("const", (space.getD .text).literal text)) ++
        ((default.or declaration.default).toList.map fun text =>
          ("default", (space.getD .text).literal text)))) := fun space hb =>
    h.remarked hb (isRemark_all _ _ _ (space.getD .text))
  have typed : ∀ base, declaration.type = some base → S.Knows base.details := by
    intro base hb
    have htail := Knows.tail hk
    rwa [hb] at htail
  unfold Conversion.attributeSchema
  rcases htype : declaration.type with _ | name | type
  · have hb : S.schema ((Datatype.schemaOf? "anySimpleType").getD (.object [])) :=
      h.builtin "anySimpleType" rfl
    exact (Yields.pure hb).bind fun _ hb => Yields.bind_any fun _ => Yields.pure (finish _ hb)
  · exact (h.baseSchema scope _ (typed _ htype)).bind fun _ hb =>
      Yields.bind_any fun _ => Yields.pure (finish _ hb)
  · exact (h.baseSchema scope _ (typed _ htype)).bind fun _ hb =>
      Yields.bind_any fun _ => Yields.pure (finish _ hb)

omit h in
theorem addAttribute {shape : Shape} (hs : S.Admits false shape) (site : Site) {name : String}
    (hn : S.name name) {slot : Slot} (hi : S.schema slot.item) :
    Yields (Conversion.addAttribute context site name slot shape) (S.Admits false) := by
  unfold Conversion.addAttribute
  split
  · next result hr => exact Yields.pure (hs.addAttribute? hn hi hr)
  · exact Yields.bind_any fun _ => Yields.pure hs

theorem collectUse {expand : AttributeExpansion} (he : Extends S expand) (site : Site)
    {shape : Shape} (hs : S.Admits false shape) {use : AttributeUse} (hk : S.Knows use.details) :
    Yields (Conversion.collectUse context expand site shape use) (S.Admits false) := by
  unfold Conversion.collectUse
  split
  · split
    · exact Yields.pure (hs.removeAttribute _)
    · exact (h.attributeSchema _ hk _ _).bind fun _ hi =>
        addAttribute hs site (h.member (Knows.head hk) _ _) hi
  · refine (Yields.found fun located hl => h.ofAttribute hl).bind fun located hl => ?_
    dsimp only
    split
    · exact Yields.pure (hs.removeAttribute _)
    · exact (h.attributeSchema _ hl _ _).bind fun _ hi =>
        addAttribute hs site (h.member (Knows.head hl) _ _) hi
  · refine (Yields.found fun located hl => h.ofAttributeGroup hl).bind fun located hl => ?_
    refine ((he _ located hl hs).visiting).bind fun shape hs => Yields.pure ?_
    split
    · exact hs.opened true
    · exact hs

theorem collectUses {expand : AttributeExpansion} (he : Extends S expand) (site : Site) :
    ∀ {shape : Shape}, S.Admits false shape → ∀ {uses : List AttributeUse},
      S.Knows (usesDetails uses) →
      Yields (Conversion.collectUses context expand site shape uses) (S.Admits false)
  | _, hs, [], _ => Yields.pure hs
  | _, hs, _ :: _, hk =>
    (h.collectUse he site hs (Knows.left hk)).bind fun _ hs =>
      collectUses he site hs (Knows.right hk)

theorem expandAttributes : ∀ depth : Nat, Extends S (Conversion.expandAttributes context depth)
  | 0, _, _, _, _, _ => Yields.throw
  | depth + 1, site, _, _, hk, hs => h.collectUses (expandAttributes depth) site hs (Knows.tail hk)

theorem collectAttributes (site : Site) {uses : List AttributeUse} (hk : S.Knows (usesDetails uses))
    {shape : Shape} (hs : S.Admits false shape) :
    Yields (Conversion.collectAttributes context site uses shape) (S.Admits false) :=
  h.collectUses (h.expandAttributes _) site hs hk

/-! ### Choices -/

variable {nested : Bool}

theorem addElement {shape : Shape} (hs : S.Admits nested shape) (site : Site) {name : String}
    (hn : S.name name) {slot : Slot} (hi : S.schema slot.item) :
    Yields (Conversion.addElement context site name slot shape) (S.Admits nested) := by
  have added : S.Admits nested (shape.addElement Slot.andThen name slot).1 :=
    hs.addElement hn (fun old ho => h.eitherItem ho hi) hi
  unfold Conversion.addElement
  rcases hr : shape.addElement Slot.andThen name slot with ⟨result, joined⟩
  rw [hr] at added
  cases joined with
  | added => exact Yields.pure added
  | merged => exact Yields.bind_any fun _ => Yields.pure added
  | dropped => exact Yields.bind_any fun _ => Yields.pure added

theorem joinMembers (site : Site) (outside : List String) : ∀ {shape : Shape},
    S.Admits nested shape → ∀ members : List (String × Slot),
      (∀ entry ∈ members, S.name entry.1 ∧ S.schema entry.2.item) →
      Yields (Conversion.joinMembers context site outside shape members) (S.Admits nested)
  | _, hs, [], _ => Yields.pure hs
  | shape, hs, (name, slot) :: rest, hm => by
      rw [List.forall_mem_cons] at hm
      unfold Conversion.joinMembers
      split
      · have added : Yields (Conversion.addElement context site name
            (.ofElement slot.item slot.bounds.orNone) shape) (S.Admits nested) :=
          h.addElement hs site hm.1.1 hm.1.2
        exact added.bind fun _ hs => joinMembers site outside hs rest hm.2
      · have added : S.Admits nested
            (shape.addElement Slot.orElse name { slot with required := false }).1 :=
          hs.addElement hm.1.1 (fun old ho => h.eitherItem ho hm.1.2) hm.1.2
        exact (Yields.pure added).bind fun _ hs => joinMembers site outside hs rest hm.2

theorem joinBranches (site : Site) (outside : List String) : ∀ {shape : Shape},
    S.Admits nested shape → ∀ branches : List Shape, (∀ branch ∈ branches, S.Admits true branch) →
      Yields (Conversion.joinBranches context site outside shape branches) (S.Admits nested)
  | _, hs, [], _ => Yields.pure hs
  | _, hs, branch :: rest, hb => by
      rw [List.forall_mem_cons] at hb
      exact (h.joinMembers site outside (hs.opened _) branch.slots hb.1.slots).bind
        fun _ hs => joinBranches site outside hs rest hb.2

theorem addChoice (site : Site) (obliged : Bool) {branches : List Shape}
    (hb : ∀ branch ∈ branches, S.Admits true branch) {shape : Shape}
    (hs : S.Admits nested shape) :
    Yields (Conversion.addChoice context site obliged branches shape) (S.Admits nested) := by
  have joined : Yields (do
      let shape ← Conversion.joinBranches context site shape.names shape branches
      return { shape with choices := shape.choices ++ (Shape.choice? branches obliged).toList })
      (S.Admits nested) := by
    refine (h.joinBranches site shape.names hs branches hb).bind fun result hr =>
      Yields.pure ⟨hr.nodup, hr.slots, ?_, hr.groups, hr.text⟩
    exact List.forall_mem_append.2
      ⟨hr.choices, fun choice hc => h.choice hb (Option.mem_toList.1 hc)⟩
  unfold Conversion.addChoice
  split
  · exact Yields.bind_any fun _ => joined
  · exact joined

/-! ### Bases -/

theorem collectBase {expand : Expansions} (he : Expands S expand) (site : Site)
    (inheritance : Inheritance) (base : QName) {shape : Shape} (hs : S.Admits false shape) :
    Yields (Conversion.collectBase context expand site inheritance base shape)
      (S.Admits false) := by
  unfold Conversion.collectBase
  split
  · split
    · exact Yields.pure hs
    · exact Yields.bind_any fun _ => Yields.pure hs
  · refine (Yields.found fun located hl => (h.ofType hl).1).bind fun located hl => ?_
    split
    · next type hd =>
        have htype : S.Knows located.declaration.definition.details := hl.tail
        rw [hd] at htype
        exact (he.base site inheritance located htype hs).visiting
    · exact Yields.bind_any fun _ => Yields.pure hs

theorem restrictedSchema (scope : File) (typeName : String) (report : Bool) (base : QName)
    (facets : List Facet) :
    Yields (Conversion.simpleSchema context scope typeName report
      (.restriction (.named base) facets)) S.schema :=
  h.simpleSchema scope typeName report fun _ hd => absurd hd List.not_mem_nil

theorem narrowText (site : Site) (located : Located NamedType) (facets : List Facet)
    {shape : Shape} (hs : S.Admits false shape) :
    Yields (Conversion.narrowText context site located facets shape) (S.Admits false) := by
  unfold Conversion.narrowText
  split
  · refine (h.restrictedSchema _ _ _ _ _).bind fun narrowed hn => Yields.pure (hs.withText ?_)
    split
    · next inherited hi => exact h.both (hs.text inherited hi) hn
    · exact hn
  · exact Yields.bind_any fun _ => Yields.pure hs

theorem textSchema (site : Site) (base : QName) (facets : List Facet) :
    Yields (Conversion.textSchema context site base facets) S.schema := by
  unfold Conversion.textSchema
  split
  · exact h.typeReference site.scope base site.location
  · exact h.restrictedSchema site.scope _ _ base facets

/-- If the base of simple content is complex, it is a type that the linkage finds. -/
theorem complexBase? (site : Site) (base : QName) :
    Yields (Conversion.complexBase? context site base) fun found =>
      ∀ located type, found = some (located, type) → S.Knows type.details := by
  unfold Conversion.complexBase?
  split
  · exact Yields.pure fun _ _ hf => nomatch hf
  · refine (Yields.found fun located hl => (h.ofType hl).1).bind fun located hl => ?_
    have htype : S.Knows located.declaration.definition.details := hl.tail
    split
    · next type hd =>
        rw [hd] at htype
        exact Yields.pure fun _ _ hf => (Prod.mk.inj (Option.some.inj hf)).2 ▸ htype
    · exact Yields.pure fun _ _ hf => nomatch hf

theorem collectText {expand : Expansions} (he : Expands S expand) (site : Site) (base : QName)
    (derivation : Derivation) (facets : List Facet) {shape : Shape} (hs : S.Admits false shape) :
    Yields (Conversion.collectText context expand site base derivation facets shape)
      (S.Admits false) := by
  unfold Conversion.collectText
  refine (h.complexBase? site base).bind fun found hf => ?_
  split
  · exact (h.textSchema site base _).bind fun text ht => Yields.pure (hs.withText ht)
  · next located type =>
      exact ((he.base site .everything located (hf located type rfl) hs).visiting).bind
        fun _ hs => Yields.ite (Yields.pure hs) (h.narrowText site _ _ hs)

/-! ### Content -/

theorem collectGroupRef {expand : Expansions} (he : Expands S expand) (site : Site)
    (reference : QName) (bounds : Bounds) {shape : Shape} (hs : S.Admits nested shape) :
    Yields (Conversion.collectGroupRef context expand site reference bounds nested shape)
      (S.Admits nested) := by
  unfold Conversion.collectGroupRef
  refine (Yields.found fun located hl => h.ofGroup hl).bind fun located hl => Yields.visiting ?_
  split
  · next reused =>
      simp only [Bool.and_eq_true, Bool.not_eq_true'] at reused
      obtain ⟨⟨rfl, -⟩, hr⟩ := reused
      exact (he.group site located .once hl.1 .empty).bind fun members hm =>
        Yields.pure (h.addReference hs hm (hl.2 hr))
  · exact he.group site located bounds hl.1 hs

theorem collectElementRef (site : Site) (reference : QName) (bounds : Bounds) {shape : Shape}
    (hs : S.Admits nested shape) :
    Yields (Conversion.collectElementRef context site reference bounds shape)
      (S.Admits nested) := by
  unfold Conversion.collectElementRef
  refine (Yields.found fun located hl => h.ofElement hl).bind fun located hl => ?_
  have hname : S.detail (.name located.declaration.name) := by
    have hk := hl.1
    cases hd : located.declaration
    rw [hd] at hk
    exact hk.head
  exact h.addElement hs site (h.member hname _ _) hl.2

omit h

mutual

theorem collectComplex (h : S.IsKept context) {expand : Expansions} (he : Expands S expand)
    (site : Site) (inheritance : Inheritance) {shape : Shape} (hs : S.Admits false shape) :
    ∀ type : ComplexType, S.Knows type.details →
      Yields (Conversion.collectComplex context expand site inheritance shape type)
        (S.Admits false)
  | ⟨content, attributes, anyAttribute, mixed⟩, hk => by
      unfold Conversion.collectComplex
      have collected : Yields (do
          let shape ← Conversion.collectContent context expand site inheritance shape content
          let shape ← Conversion.collectAttributes context site attributes shape
          return if anyAttribute then { shape with isOpen := true } else shape)
        (S.Admits false) := by
        refine (h.collectContent he site inheritance hs content (Knows.left hk)).bind fun _ hs =>
          (h.collectAttributes site (Knows.right hk) hs).bind fun shape hs => Yields.pure ?_
        split
        · exact hs.opened true
        · exact hs
      exact Yields.ite (Yields.bind_any fun _ => collected) collected

theorem collectContent (h : S.IsKept context) {expand : Expansions} (he : Expands S expand)
    (site : Site) (inheritance : Inheritance) {shape : Shape} (hs : S.Admits false shape) :
    ∀ content : Content, S.Knows content.details →
      Yields (Conversion.collectContent context expand site inheritance shape content)
        (S.Admits false)
  | .empty, _ => by
      unfold Conversion.collectContent
      exact Yields.pure hs
  | .particle p, hk => by
      unfold Conversion.collectContent
      split
      · exact h.collectParticle he site .once hs p hk
      · exact Yields.pure hs
  | .extension base none, _ => by
      unfold Conversion.collectContent
      exact h.collectBase he site inheritance base hs
  | .extension base (some p), hk => by
      unfold Conversion.collectContent
      refine (h.collectBase he site inheritance base hs).bind fun _ hs => ?_
      split
      · exact h.collectParticle he site .once hs p hk
      · exact Yields.pure hs
  | .restriction base none, _ => by
      unfold Conversion.collectContent
      exact h.collectBase he site .attributes base hs
  | .restriction base (some p), hk => by
      unfold Conversion.collectContent
      refine (h.collectBase he site .attributes base hs).bind fun _ hs => ?_
      split
      · exact h.collectParticle he site .once hs p hk
      · exact Yields.pure hs
  | .simple base derivation facets, _ => by
      unfold Conversion.collectContent
      exact h.collectText he site base derivation facets hs

theorem collectParticle (h : S.IsKept context) {expand : Expansions} (he : Expands S expand)
    {nested : Bool} (site : Site) (outer : Bounds) {shape : Shape} (hs : S.Admits nested shape) :
    ∀ p : Particle, S.Knows p.details →
      Yields (Conversion.collectParticle context expand site outer nested shape p)
        (S.Admits nested)
  | ⟨least, most, term⟩, hk => by
      unfold Conversion.collectParticle
      dsimp only
      split
      · exact Yields.pure hs
      · exact h.collectTerm he site _ hs term hk

theorem collectTerm (h : S.IsKept context) {expand : Expansions} (he : Expands S expand)
    {nested : Bool} (site : Site) (bounds : Bounds) {shape : Shape} (hs : S.Admits nested shape) :
    ∀ term : Term, S.Knows term.details →
      Yields (Conversion.collectTerm context expand site bounds nested shape term)
        (S.Admits nested)
  | .element ⟨name, qualified, type, nillable, default, fixed, documentation⟩, hk => by
      unfold Conversion.collectTerm
      exact (h.elementSchema he _ ⟨name, qualified, type, nillable, default, fixed, documentation⟩
        hk).bind fun _ hi => h.addElement hs site (h.member (Knows.head hk) _ _) hi
  | .elementRef reference, _ => by
      unfold Conversion.collectTerm
      exact h.collectElementRef site reference bounds hs
  | .group group, hk => by
      unfold Conversion.collectTerm
      exact h.collectGroup he site bounds hs group hk
  | .groupRef reference, _ => by
      unfold Conversion.collectTerm
      exact h.collectGroupRef he site reference bounds hs
  | .any, _ => by
      unfold Conversion.collectTerm
      exact Yields.pure (hs.opened true)

theorem collectGroup (h : S.IsKept context) {expand : Expansions} (he : Expands S expand)
    {nested : Bool} (site : Site) (bounds : Bounds) {shape : Shape} (hs : S.Admits nested shape) :
    ∀ group : ModelGroup, S.Knows group.details →
      Yields (Conversion.collectGroup context expand site bounds nested shape group)
        (S.Admits nested)
  | ⟨.choice, particles⟩, hk => by
      unfold Conversion.collectGroup
      split
      · exact Yields.bind_any fun _ => h.collectParticles he site bounds.orNone hs particles hk
      · exact (h.collectBranches he site _ particles hk).bind fun _ hb =>
          h.addChoice site bounds.isRequired hb hs
  | ⟨.sequence, particles⟩, hk => by
      unfold Conversion.collectGroup
      exact h.collectParticles he site bounds hs particles hk
  | ⟨.all, particles⟩, hk => by
      unfold Conversion.collectGroup
      exact h.collectParticles he site bounds hs particles hk

theorem collectParticles (h : S.IsKept context) {expand : Expansions} (he : Expands S expand)
    {nested : Bool} (site : Site) (outer : Bounds) {shape : Shape} (hs : S.Admits nested shape) :
    ∀ particles : List Particle, S.Knows (particlesDetails particles) →
      Yields (Conversion.collectParticles context expand site outer nested shape particles)
        (S.Admits nested)
  | [], _ => by
      unfold Conversion.collectParticles
      exact Yields.pure hs
  | p :: rest, hk => by
      unfold Conversion.collectParticles
      exact (h.collectParticle he site outer hs p (Knows.left hk)).bind fun _ hs =>
        h.collectParticles he site outer hs rest (Knows.right hk)

theorem collectBranches (h : S.IsKept context) {expand : Expansions} (he : Expands S expand)
    (site : Site) (outer : Bounds) : ∀ particles : List Particle,
      S.Knows (particlesDetails particles) →
      Yields (Conversion.collectBranches context expand site outer particles)
        fun branches => ∀ branch ∈ branches, S.Admits true branch
  | [], _ => by
      unfold Conversion.collectBranches
      exact Yields.pure fun _ h => absurd h List.not_mem_nil
  | p :: rest, hk => by
      unfold Conversion.collectBranches
      exact (h.collectParticle he site outer .empty p (Knows.left hk)).bind fun _ hs =>
        (h.collectBranches he site outer rest (Knows.right hk)).bind fun _ hb =>
          Yields.pure (List.forall_mem_cons.2 ⟨hs, hb⟩)

theorem elementSchema (h : S.IsKept context) {expand : Expansions} (he : Expands S expand)
    (site : Site) : ∀ element : Element, S.Knows element.details →
      Yields (Conversion.elementSchema context expand site element) S.schema
  | ⟨name, _, type, nillable, default, fixed, documentation⟩, hk => by
      unfold Conversion.elementSchema
      refine (h.elementTypeSchema he site name.name type (Knows.tail hk)).bind fun _ hb => ?_
      refine (yields_elementKeywords context site type default fixed documentation).bind
        fun _ hx => Yields.pure ?_
      split
      · exact h.nullable (h.remarked hb hx)
      · exact h.remarked hb hx

theorem elementTypeSchema (h : S.IsKept context) {expand : Expansions} (he : Expands S expand)
    (site : Site) (elementName : String) : ∀ type : ElementType, S.Knows type.details →
      Yields (Conversion.elementTypeSchema context expand site elementName type) S.schema
  | .named name, _ => by
      unfold Conversion.elementTypeSchema
      exact h.typeReference site.scope name site.location
  | .simple type, hk => by
      unfold Conversion.elementTypeSchema
      exact h.simpleSchema site.scope elementName true hk
  | .complex type, hk => by
      unfold Conversion.elementTypeSchema
      exact (h.collectComplex he site .everything .empty type hk).bind
        fun _ hs => Yields.pure (h.object hs _)
  | .any, _ => by
      unfold Conversion.elementTypeSchema
      exact Yields.pure (h.builtin "anyType" rfl)

end

include h

theorem expands_expansions : ∀ depth : Nat, Expands S (expansions context depth)
  | 0 => ⟨fun _ _ _ _ _ _ _ => Yields.throw, fun _ _ _ _ _ _ => Yields.throw⟩
  | depth + 1 =>
    ⟨fun _ inheritance _ type _ hk hs =>
      h.collectComplex (expands_expansions depth) _ inheritance hs type hk,
    fun _ _ bounds _ hk hs => h.collectGroup (expands_expansions depth) _ bounds hs _ hk.tail⟩

/-- The shape of a complex type on its own. -/
theorem complexShape (site : Site) {type : ComplexType} (hk : S.Knows type.details) :
    Yields (Conversion.collectComplex context (allExpansions context) site .everything {} type)
      (S.Admits false) :=
  h.collectComplex (h.expands_expansions _) site .everything .empty type hk

/-- The shape of a group on its own: there are no links to groups in it. -/
theorem groupShape (site : Site) {group : ModelGroup} (hk : S.Knows group.details) :
    Yields (Conversion.collectGroup context (allExpansions context) site .once true {} group)
      (S.Admits true) :=
  h.collectGroup (h.expands_expansions _) site .once .empty group hk

/-! ### Declarations -/

theorem typeDefinition {type : NamedType} (hk : S.Knows type.details) :
    Yields (Conversion.typeDefinition context type) fun entry =>
      entry.1 = type.name.name ∧ S.schema entry.2 := by
  have hdefinition : S.Knows type.definition.details := hk.tail
  have finish : ∀ {schema : Json}, S.schema schema →
      S.schema (withKeywords schema (descriptionOf type.documentation)) :=
    fun hs => h.remarked hs (isRemark_descriptionOf _)
  unfold Conversion.typeDefinition
  dsimp only
  split
  · next simple hd =>
      rw [hd] at hdefinition
      exact ((h.simpleSchema _ _ _ hdefinition).visiting).bind fun _ hs =>
        Yields.pure ⟨rfl, finish hs⟩
  · next complex hd =>
      rw [hd] at hdefinition
      refine (Yields.visiting ?_).bind fun _ hs => Yields.pure ⟨rfl, finish hs⟩
      exact (h.complexShape _ hdefinition).bind fun _ hs => Yields.pure (h.object hs _)

theorem groupDefinition {group : NamedGroup} (hk : S.Knows group.details) :
    Yields (Conversion.groupDefinition context group) fun entry =>
      entry.1 = groupKey group.name.name ∧ S.schema entry.2 :=
  (h.groupShape _ hk.tail).visiting.bind fun _ hs =>
    Yields.pure ⟨rfl, h.remarked (h.object hs false) (isRemark_descriptionOf _)⟩

theorem elementProperty {element : Element} (hk : S.Knows element.details) :
    Yields (Conversion.elementProperty context element) fun entry =>
      entry.1 = element.name.name ∧ S.schema entry.2 :=
  (h.elementSchema (h.expands_expansions _) _ element hk).bind fun _ hs => Yields.pure ⟨rfl, hs⟩

end IsKept

end Standard

end Conversion

end Crosswalk
