import Crosswalk.Proofs.Conversion.Run

/-!
# Classes of conversions

A class of conversions is closed if it contains the elementary ones — a result, a fatal problem, the
noting of a diagnostic — and whatever is put together from its members. It is quiet if it need not
contain problems, and then contains all that never fails. Every conversion of a
declaration belongs to every closed class. The induction over the components of a schema is carried
out here once; what holds of all conversions is then a matter of the elementary ones.
-/

namespace Crosswalk

namespace Conversion

/-- A class of conversions that contains those that only note something about the file whose
document is made, and whatever is put together from its members. -/
structure IsQuiet (context : Context) (P : {α : Type} → Conversion α → Prop) : Prop where
  pure : ∀ {α : Type} (a : α), P (Pure.pure a : Conversion α)
  record : ∀ p : Problem, p.isFatal = false → p.filename = context.file.filename → P (record p)
  bind : ∀ {α β : Type} {c : Conversion α} {f : α → Conversion β},
    P c → (∀ a, P (f a)) → P (c >>= f)

/-- A class of conversions that contains those that simple types and attributes are made by: they
may end in problems and catch them, and expand simple types. -/
structure IsBasic (context : Context) (P : {α : Type} → Conversion α → Prop) : Prop extends
    IsQuiet context P where
  throw : ∀ {α : Type} (p : Problem), p.isFatal = true → P (MonadExcept.throw p : Conversion α)
  expanding : ∀ {α : Type} (scope : File) (name : QName) {c : Conversion α},
    P c → P (visiting .simple scope name c)
  tryCatch : ∀ {α : Type} {c : Conversion α} {f : Problem → Conversion α},
    P c → (∀ p, P (f p)) → P (MonadExcept.tryCatch c f)

/-- A class of conversions that contains the elementary ones and what is put together from its
members. -/
structure IsClosed (context : Context) (P : {α : Type} → Conversion α → Prop) : Prop extends
    IsBasic context P where
  visiting : ∀ {α : Type} (kind : Expandable) (scope : File) (name : QName) {c : Conversion α},
    P c → P (visiting kind scope name c)
  expanding := visiting .simple

theorem ite_of_both {P : {α : Type} → Conversion α → Prop} {α : Type} {p : Prop} [Decidable p]
    {c d : Conversion α} (hc : P c) (hd : P d) : P (if p then c else d) := by
  split
  · exact hc
  · exact hd

/-! ### Conversions that note something -/

namespace IsQuiet

variable (context : Context) {P : {α : Type} → Conversion α → Prop} (h : IsQuiet context P)
include h

variable {context} in
theorem map {α β : Type} {c : Conversion α} (f : α → β) (hc : P c) :
    P (c >>= fun a => Pure.pure (f a)) :=
  h.bind hc fun a => h.pure (f a)

theorem diagnose (scope : File) (location construct : String) :
    P (Conversion.diagnose context scope location construct) := by
  unfold Conversion.diagnose
  split
  · next hown => exact h.record _ rfl (beq_iff_eq.1 hown)
  · exact h.pure _

theorem site_diagnose (site : Site) (construct : String) :
    P (site.diagnose context construct) :=
  h.diagnose context site.scope site.location construct

theorem recordIssue (scope : File) (typeName : String) (issue : FacetIssue) :
    P (Conversion.recordIssue context scope typeName issue) := by
  unfold Conversion.recordIssue
  split
  · split
    · next hown => exact h.record _ rfl (beq_iff_eq.1 hown)
    · exact h.pure _
  · exact h.diagnose context scope _ _

theorem recordIssues (scope : File) (typeName : String) :
    ∀ issues : List FacetIssue, P (Conversion.recordIssues context scope typeName issues)
  | [] => h.pure _
  | issue :: rest =>
    h.bind (h.recordIssue context scope typeName issue) fun _ =>
      recordIssues scope typeName rest

theorem namedSpace? (hs : ∀ scope type, P (Conversion.spaceOf? context scope type)) (scope : File)
    (name : QName) : P (Conversion.namedSpace? context scope name) := by
  unfold Conversion.namedSpace?
  split
  · exact h.pure _
  · split
    · exact h.pure _
    · split
      · exact hs _ _
      · exact h.pure _

theorem literalSpace? (hs : ∀ scope type, P (Conversion.spaceOf? context scope type)) (scope : File)
    (type : ElementType) :
    P (Conversion.literalSpace? context scope type) := by
  unfold Conversion.literalSpace?
  split
  · exact h.namedSpace? context hs scope _
  · exact hs scope _
  · exact h.pure _
  · exact h.pure _

theorem addAttribute (site : Site) (name : String) (slot : Slot)
    (shape : Shape) : P (Conversion.addAttribute context site name slot shape) := by
  unfold Conversion.addAttribute
  split
  · exact h.pure _
  · exact h.bind (h.site_diagnose context site _) fun _ => h.pure _

theorem addElement (site : Site) (name : String) (slot : Slot)
    (shape : Shape) : P (Conversion.addElement context site name slot shape) := by
  unfold Conversion.addElement
  rcases shape.addElement Slot.andThen name slot with ⟨shape, joined⟩
  cases joined with
  | added => exact h.pure _
  | merged => exact h.bind (h.site_diagnose context site _) fun _ => h.pure _
  | dropped => exact h.bind (h.site_diagnose context site _) fun _ => h.pure _

theorem joinMembers (site : Site) (outside : List String) :
    ∀ (shape : Shape) (members : List (String × Slot)),
      P (Conversion.joinMembers context site outside shape members)
  | _, [] => h.pure _
  | shape, (name, slot) :: rest => by
      unfold Conversion.joinMembers
      split
      · exact h.bind (h.addElement context site _ _ _) fun shape =>
          joinMembers site outside shape rest
      · exact h.bind (h.pure _) fun shape => joinMembers site outside shape rest

theorem joinBranches (site : Site) (outside : List String) :
    ∀ (shape : Shape) (branches : List Shape),
      P (Conversion.joinBranches context site outside shape branches)
  | _, [] => h.pure _
  | _, branch :: rest =>
    h.bind (h.joinMembers context site outside _ branch.slots) fun shape =>
      joinBranches site outside shape rest

theorem addChoice (site : Site) (obliged : Bool) (branches : List Shape)
    (shape : Shape) : P (Conversion.addChoice context site obliged branches shape) := by
  unfold Conversion.addChoice
  have joined := h.map (fun s => { s with choices := s.choices ++
    (Shape.choice? branches obliged).toList })
    (h.joinBranches context site shape.names shape branches)
  split
  · exact h.bind (h.site_diagnose context site _) fun _ => joined
  · exact joined

theorem elementKeywords (hs : ∀ scope type, P (Conversion.spaceOf? context scope type))
    (site : Site) (type : ElementType) (default fixed documentation : Option String) :
    P (Conversion.elementKeywords context site type default fixed documentation) := by
  unfold Conversion.elementKeywords
  refine ite_of_both (h.pure _) (h.bind (h.literalSpace? context hs site.scope type)
    fun space? => ?_)
  cases space? with
  | some space => exact h.pure _
  | none => exact h.bind (h.site_diagnose context site _) fun _ => h.pure _

end IsQuiet

/-! ### Simple types and attributes -/

namespace IsBasic

variable (context : Context) {P : {α : Type} → Conversion α → Prop} (h : IsBasic context P)
include h

variable {context} in
theorem found {α : Type} (scope : File) (referencing : String) (name : QName)
    (result : Option α) : P (Conversion.found scope referencing name result) := by
  unfold Conversion.found
  split
  · exact h.pure _
  · exact h.throw _ rfl

theorem typeReference (scope : File) (name : QName) (referencing : String) :
    P (Conversion.typeReference context scope name referencing) := by
  unfold Conversion.typeReference
  split
  · exact h.found scope referencing name _
  · exact h.map _ (h.found scope referencing name _)

variable {context} in
theorem builtinShape (scope : File) (typeName : String) (name : QName) :
    P (Conversion.builtinShape scope typeName name) :=
  h.map _ (h.found scope _ name _)

theorem namedBase (expand : SimpleExpansion)
    (he : ∀ located type, P (expand located type)) (scope : File) (typeName : String)
    (name : QName) : P (Conversion.namedBase context expand scope typeName name) := by
  unfold Conversion.namedBase
  split
  · exact h.builtinShape scope typeName name
  · refine h.bind (h.found scope _ name _) fun located => ?_
    split
    · exact h.expanding _ _ (he located _)
    · exact h.bind (h.diagnose context scope _ _) fun _ => h.builtinShape scope typeName _

mutual

theorem shapeWith (expand : SimpleExpansion)
    (he : ∀ located type, P (expand located type)) (scope : File) (typeName : String)
    (report : Bool) : ∀ type : SimpleType,
      P (Conversion.shapeWith context expand scope typeName report type)
  | .restriction base facets => by
      unfold Conversion.shapeWith
      refine h.bind (baseShape expand he scope typeName report base) fun inherited => ?_
      cases report with
      | true => exact h.bind (h.recordIssues context scope typeName _) fun _ => h.pure _
      | false => exact h.pure _
  | .list item => by
      unfold Conversion.shapeWith
      exact h.map _ (baseSchemaWith expand he scope typeName report item)
  | .union members => by
      unfold Conversion.shapeWith
      exact h.map _ (memberSchemas expand he scope typeName report members)

theorem baseShape (expand : SimpleExpansion)
    (he : ∀ located type, P (expand located type)) (scope : File) (typeName : String)
    (report : Bool) : ∀ base : SimpleBase,
      P (Conversion.baseShape context expand scope typeName report base)
  | .inline type => by
      unfold Conversion.baseShape
      exact shapeWith expand he scope typeName report type
  | .named name => by
      unfold Conversion.baseShape
      exact h.namedBase context expand he scope typeName name

theorem baseSchemaWith (expand : SimpleExpansion)
    (he : ∀ located type, P (expand located type)) (scope : File) (typeName : String)
    (report : Bool) : ∀ base : SimpleBase,
      P (Conversion.baseSchemaWith context expand scope typeName report base)
  | .named name => by
      unfold Conversion.baseSchemaWith
      exact h.typeReference context scope name _
  | .inline type => by
      unfold Conversion.baseSchemaWith
      exact h.map _ (shapeWith expand he scope typeName report type)

theorem memberSchemas (expand : SimpleExpansion)
    (he : ∀ located type, P (expand located type)) (scope : File) (typeName : String)
    (report : Bool) : ∀ members : List SimpleBase,
      P (Conversion.memberSchemas context expand scope typeName report members)
  | [] => by
      unfold Conversion.memberSchemas
      exact h.pure _
  | m :: rest => by
      unfold Conversion.memberSchemas
      exact h.bind (baseSchemaWith expand he scope typeName report m) fun _ =>
        h.map _ (memberSchemas expand he scope typeName report rest)

end

theorem expandSimple : ∀ (depth : Nat) (located : Located NamedType)
    (type : SimpleType), P (Conversion.expandSimple context depth located type)
  | 0, _, _ => h.throw _ rfl
  | depth + 1, located, type =>
    h.shapeWith context (Conversion.expandSimple context depth) (expandSimple depth)
      located.file located.declaration.name.name false type

theorem simpleShape (scope : File) (typeName : String) (report : Bool)
    (type : SimpleType) : P (Conversion.simpleShape context scope typeName report type) :=
  h.shapeWith context _ (h.expandSimple context _) scope typeName report type

theorem simpleSchema (scope : File) (typeName : String) (report : Bool)
    (type : SimpleType) : P (Conversion.simpleSchema context scope typeName report type) :=
  h.map _ (h.simpleShape context scope typeName report type)

theorem baseSchema (scope : File) (typeName : String) (base : SimpleBase) :
    P (Conversion.baseSchema context scope typeName base) := by
  unfold Conversion.baseSchema
  split
  · exact h.typeReference context scope _ _
  · exact h.simpleSchema context scope typeName true _

theorem spaceOf? (scope : File) (type : SimpleType) :
    P (Conversion.spaceOf? context scope type) :=
  h.tryCatch (h.map _ (h.simpleShape context scope "" false type)) fun _ => h.pure _

theorem attributeSchema (scope : File) (declaration : Attribute)
    (default fixed : Option String) :
    P (Conversion.attributeSchema context scope declaration default fixed) := by
  unfold Conversion.attributeSchema
  rcases declaration.type with _ | name | type
  · exact h.bind (h.pure _) fun _ => h.bind (h.pure _) fun _ => h.pure _
  · exact h.bind (h.baseSchema context scope _ _) fun _ =>
      h.bind (h.namedSpace? context (h.spaceOf? context) scope name) fun _ => h.pure _
  · exact h.bind (h.baseSchema context scope _ _) fun _ =>
      h.bind (h.spaceOf? context scope type) fun _ => h.pure _

end IsBasic

/-! ### All conversions -/

/-- Expansions that belong to a class. -/
structure Expansions.In (P : {α : Type} → Conversion α → Prop) (expand : Expansions) : Prop where
  base : ∀ site inheritance located type shape,
    P (expand.base site inheritance located type shape)
  group : ∀ site located bounds nested shape, P (expand.group site located bounds nested shape)

namespace IsClosed

variable (context : Context) {P : {α : Type} → Conversion α → Prop} (h : IsClosed context P)
include h

/-! ### Attributes -/

theorem collectUse (expand : AttributeExpansion)
    (he : ∀ site located shape, P (expand site located shape)) (site : Site) (shape : Shape)
    (use : AttributeUse) : P (Conversion.collectUse context expand site shape use) := by
  unfold Conversion.collectUse
  split
  · refine ite_of_both (h.pure _) ?_
    exact h.bind (h.attributeSchema context _ _ _ _) fun _ => h.addAttribute context site _ _ shape
  · refine h.bind (h.found site.scope site.location _ _) fun located => ?_
    refine ite_of_both (h.pure _) ?_
    exact h.bind (h.attributeSchema context _ _ _ _) fun _ => h.addAttribute context site _ _ shape
  · exact h.bind (h.found site.scope site.location _ _) fun located =>
      h.map _ (h.visiting _ _ _ (he _ located shape))

theorem collectUses (expand : AttributeExpansion)
    (he : ∀ site located shape, P (expand site located shape)) (site : Site) :
    ∀ (shape : Shape) (uses : List AttributeUse),
      P (Conversion.collectUses context expand site shape uses)
  | _, [] => h.pure _
  | shape, use :: rest =>
    h.bind (h.collectUse context expand he site shape use) fun shape =>
      collectUses expand he site shape rest

theorem expandAttributes : ∀ (depth : Nat) (site : Site)
    (located : Located AttributeGroup) (shape : Shape),
      P (Conversion.expandAttributes context depth site located shape)
  | 0, _, _, _ => h.throw _ rfl
  | depth + 1, site, located, shape =>
    h.collectUses context _ (expandAttributes depth) site shape
      located.declaration.attributes

theorem collectAttributes (site : Site) (uses : List AttributeUse)
    (shape : Shape) : P (Conversion.collectAttributes context site uses shape) :=
  h.collectUses context _ (h.expandAttributes context _) site shape uses

/-! ### Complex types -/

theorem textSchema (site : Site) (base : QName) (facets : List Facet) :
    P (Conversion.textSchema context site base facets) := by
  unfold Conversion.textSchema
  split
  · exact h.typeReference context site.scope base site.location
  · exact h.simpleSchema context site.scope _ _ _

theorem complexBase? (site : Site) (base : QName) :
    P (Conversion.complexBase? context site base) := by
  unfold Conversion.complexBase?
  split
  · exact h.pure _
  · refine h.bind (h.found site.scope site.location base _) fun located => ?_
    split
    · exact h.pure _
    · exact h.pure _

theorem collectBase (expand : Expansions) (he : expand.In P) (site : Site)
    (inheritance : Inheritance) (base : QName) (shape : Shape) :
    P (Conversion.collectBase context expand site inheritance base shape) := by
  unfold Conversion.collectBase
  split
  · split
    · exact h.pure _
    · exact h.bind (h.site_diagnose context site _) fun _ => h.pure _
  · refine h.bind (h.found site.scope site.location base _) fun located => ?_
    split
    · exact h.visiting _ _ _ (he.base site inheritance located _ shape)
    · exact h.bind (h.site_diagnose context site _) fun _ => h.pure _

theorem narrowText (site : Site) (located : Located NamedType)
    (facets : List Facet) (shape : Shape) :
    P (Conversion.narrowText context site located facets shape) := by
  unfold Conversion.narrowText
  split
  · exact h.map _ (h.simpleSchema context _ _ _ _)
  · exact h.bind (h.site_diagnose context site _) fun _ => h.pure _

theorem collectText (expand : Expansions) (he : expand.In P) (site : Site)
    (base : QName) (derivation : Derivation) (facets : List Facet) (shape : Shape) :
    P (Conversion.collectText context expand site base derivation facets shape) := by
  unfold Conversion.collectText
  refine h.bind (h.complexBase? context site base) fun found => ?_
  split
  · exact h.map _ (h.textSchema context site base _)
  · refine h.bind (h.visiting _ _ _ (he.base site .everything _ _ shape)) fun shape => ?_
    exact ite_of_both (h.pure _) (h.narrowText context site _ _ shape)

theorem collectGroupRef (expand : Expansions) (he : expand.In P) (site : Site)
    (reference : QName) (bounds : Bounds) (nested : Bool) (shape : Shape) :
    P (Conversion.collectGroupRef context expand site reference bounds nested shape) := by
  unfold Conversion.collectGroupRef
  refine h.bind (h.found site.scope site.location reference _) fun located => ?_
  refine h.visiting _ _ _ (ite_of_both ?_ (he.group site located bounds nested shape))
  exact h.map _ (he.group site located .once true {})

theorem collectElementRef (site : Site) (reference : QName)
    (bounds : Bounds) (shape : Shape) :
    P (Conversion.collectElementRef context site reference bounds shape) :=
  h.bind (h.found site.scope site.location reference _) fun _ =>
    h.addElement context site _ _ shape

mutual

theorem collectComplex (expand : Expansions) (he : expand.In P) (site : Site)
    (inheritance : Inheritance) (shape : Shape) : ∀ type : ComplexType,
      P (Conversion.collectComplex context expand site inheritance shape type)
  | ⟨content, attributes, anyAttribute, mixed⟩ => by
      unfold Conversion.collectComplex
      have collected := h.bind
        (collectContent expand he site inheritance shape content) fun shape =>
          h.map (fun s => if anyAttribute then { s with isOpen := true } else s)
            (h.collectAttributes context site attributes shape)
      exact ite_of_both (h.bind (h.site_diagnose context site _) fun _ => collected) collected

theorem collectContent (expand : Expansions) (he : expand.In P) (site : Site)
    (inheritance : Inheritance) (shape : Shape) : ∀ content : Content,
      P (Conversion.collectContent context expand site inheritance shape content)
  | .empty => by
      unfold Conversion.collectContent
      exact h.pure _
  | .particle p => by
      unfold Conversion.collectContent
      exact ite_of_both (collectParticle expand he site .once false shape p) (h.pure _)
  | .extension base none => by
      unfold Conversion.collectContent
      exact h.collectBase context expand he site inheritance base shape
  | .extension base (some p) => by
      unfold Conversion.collectContent
      refine h.bind (h.collectBase context expand he site inheritance base shape) fun shape => ?_
      exact ite_of_both (collectParticle expand he site .once false shape p) (h.pure _)
  | .restriction base none => by
      unfold Conversion.collectContent
      exact h.collectBase context expand he site .attributes base shape
  | .restriction base (some p) => by
      unfold Conversion.collectContent
      refine h.bind (h.collectBase context expand he site .attributes base shape) fun shape => ?_
      exact ite_of_both (collectParticle expand he site .once false shape p) (h.pure _)
  | .simple base derivation facets => by
      unfold Conversion.collectContent
      exact h.collectText context expand he site base derivation facets shape

theorem collectParticle (expand : Expansions) (he : expand.In P) (site : Site)
    (outer : Bounds) (nested : Bool) (shape : Shape) : ∀ p : Particle,
      P (Conversion.collectParticle context expand site outer nested shape p)
  | ⟨least, most, term⟩ => by
      unfold Conversion.collectParticle
      exact ite_of_both (h.pure _) (collectTerm expand he site _ nested shape term)

theorem collectTerm (expand : Expansions) (he : expand.In P) (site : Site)
    (bounds : Bounds) (nested : Bool) (shape : Shape) : ∀ term : Term,
      P (Conversion.collectTerm context expand site bounds nested shape term)
  | .element declaration => by
      unfold Conversion.collectTerm
      exact h.bind (elementSchema expand he _ declaration) fun _ =>
        h.addElement context site _ _ shape
  | .elementRef reference => by
      unfold Conversion.collectTerm
      exact h.collectElementRef context site reference bounds shape
  | .group group => by
      unfold Conversion.collectTerm
      exact collectGroup expand he site bounds nested shape group
  | .groupRef reference => by
      unfold Conversion.collectTerm
      exact h.collectGroupRef context expand he site reference bounds nested shape
  | .any => by
      unfold Conversion.collectTerm
      exact h.pure _

theorem collectGroup (expand : Expansions) (he : expand.In P) (site : Site)
    (bounds : Bounds) (nested : Bool) (shape : Shape) : ∀ group : ModelGroup,
      P (Conversion.collectGroup context expand site bounds nested shape group)
  | ⟨.choice, particles⟩ => by
      unfold Conversion.collectGroup
      refine ite_of_both ?_ ?_
      · exact h.bind (h.site_diagnose context site _) fun _ =>
          collectParticles expand he site bounds.orNone nested shape particles
      · exact h.bind (collectBranches expand he site _ particles) fun branches =>
          h.addChoice context site bounds.isRequired branches shape
  | ⟨.sequence, particles⟩ => by
      unfold Conversion.collectGroup
      exact collectParticles expand he site bounds nested shape particles
  | ⟨.all, particles⟩ => by
      unfold Conversion.collectGroup
      exact collectParticles expand he site bounds nested shape particles

theorem collectParticles (expand : Expansions) (he : expand.In P)
    (site : Site) (outer : Bounds) (nested : Bool) (shape : Shape) : ∀ particles : List Particle,
      P (Conversion.collectParticles context expand site outer nested shape particles)
  | [] => by
      unfold Conversion.collectParticles
      exact h.pure _
  | p :: rest => by
      unfold Conversion.collectParticles
      exact h.bind (collectParticle expand he site outer nested shape p) fun shape =>
        collectParticles expand he site outer nested shape rest

theorem collectBranches (expand : Expansions) (he : expand.In P)
    (site : Site) (outer : Bounds) : ∀ particles : List Particle,
      P (Conversion.collectBranches context expand site outer particles)
  | [] => by
      unfold Conversion.collectBranches
      exact h.pure _
  | p :: rest => by
      unfold Conversion.collectBranches
      exact h.bind (collectParticle expand he site outer true {} p) fun _ =>
        h.map _ (collectBranches expand he site outer rest)

theorem elementSchema (expand : Expansions) (he : expand.In P) (site : Site) :
    ∀ element : Element, P (Conversion.elementSchema context expand site element)
  | ⟨name, _, type, nillable, default, fixed, documentation⟩ => by
      unfold Conversion.elementSchema
      exact h.bind (elementTypeSchema expand he site name.name type) fun _ =>
        h.map _
          (h.elementKeywords context (h.spaceOf? context) site type default fixed documentation)

theorem elementTypeSchema (expand : Expansions) (he : expand.In P)
    (site : Site) (elementName : String) : ∀ type : ElementType,
      P (Conversion.elementTypeSchema context expand site elementName type)
  | .named name => by
      unfold Conversion.elementTypeSchema
      exact h.typeReference context site.scope name site.location
  | .simple type => by
      unfold Conversion.elementTypeSchema
      exact h.simpleSchema context site.scope elementName true type
  | .complex type => by
      unfold Conversion.elementTypeSchema
      exact h.map _ (collectComplex expand he site .everything {} type)
  | .any => by
      unfold Conversion.elementTypeSchema
      exact h.pure _

end

theorem expansions : ∀ depth : Nat,
    (Conversion.expansions context depth).In P
  | 0 => ⟨fun _ _ _ _ _ => h.throw _ rfl, fun _ _ _ _ _ => h.throw _ rfl⟩
  | depth + 1 =>
    ⟨fun _ inheritance _ type shape =>
      h.collectComplex context _ (expansions depth) _ inheritance shape type,
    fun _ located bounds nested shape =>
      h.collectGroup context _ (expansions depth) _ bounds nested shape
        located.declaration.group⟩

/-! ### Declarations -/

theorem typeDefinition (type : NamedType) :
    P (Conversion.typeDefinition context type) := by
  unfold Conversion.typeDefinition
  rcases type.definition with simple | complex
  · exact h.map _ (h.visiting _ _ _ (h.simpleSchema context context.file _ true simple))
  · exact h.map _ (h.visiting _ _ _ (h.map _
      (h.collectComplex context _ (h.expansions context _) _ .everything {} complex)))

theorem groupDefinition (group : NamedGroup) :
    P (Conversion.groupDefinition context group) :=
  h.map _ (h.visiting _ _ _
    (h.collectGroup context _ (h.expansions context _) _ .once true {} group.group))

theorem elementProperty (element : Element) :
    P (Conversion.elementProperty context element) :=
  h.map _ (h.elementSchema context _ (h.expansions context _) _ element)

end IsClosed

end Conversion

end Crosswalk
