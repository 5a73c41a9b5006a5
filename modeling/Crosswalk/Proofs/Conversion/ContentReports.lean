import Crosswalk.Proofs.Conversion.Descent
import Crosswalk.Proofs.Conversion.File
import Crosswalk.Proofs.Conversion.Reports

/-!
# What is reported about the restrictions in content

The walk through content goes on where that through simple types and attributes leaves off. The
facets of simple content are reported where its base is simple. A particle that cannot occur leads
nowhere.
-/

namespace Crosswalk

namespace Conversion

open Relation

variable {α β : Type} {context : Context} {r : Restriction} {place : StatedPart}

/-- A restriction in a base or a model group is reported where it is expanded. -/
structure ExpansionsReport (context : Context) (r : Restriction) (place : StatedPart)
    (expand : Expansions) : Prop where
  notes : expand.In (@Notes context.file.filename)
  base : ∀ (site : Site) (inheritance : Inheritance) (located : Located NamedType)
    (type : ComplexType) (shape : Shape),
    ReflTransGen context.linkage.Step (located.file, .complex inheritance type) place →
      Reports context r (expand.base site inheritance located type shape)
  group : ∀ (site : Site) (located : Located NamedGroup) (bounds : Bounds) (nested : Bool)
    (shape : Shape), bounds.most ≠ .zero →
    ReflTransGen context.linkage.Step (located.file, .namedGroup located.declaration) place →
      Reports context r (expand.group site located bounds nested shape)

/-! ### Bases -/

theorem complexBase?_eq {site : Site} {base : QName} {located : Located NamedType}
    {type : ComplexType} (hl : context.linkage.IsComplex site.scope base located type) :
    complexBase? context site base = pure (some (located, type)) := by
  obtain ⟨hb, hfound, htype⟩ := hl
  unfold complexBase?
  rw [hb, if_neg Bool.false_ne_true, hfound, found, pure_bind, htype]

/-- The facets of simple content are reported, unless they narrow what a complex type has. -/
theorem reports_facets (expand : Expansions) {site : Site}
    (hown : isOwn context site.scope = true) {base : QName} {facets : List Facet}
    (hf : facets ≠ [])
    (hbase : ∀ located type, ¬ context.linkage.IsComplex site.scope base located type)
    (shape : Shape) :
    Reports context ⟨site.scope, .named base, facets⟩
      (collectText context expand site base .restriction facets shape) := by
  unfold collectText
  refine .bind (P := (· = none)) ((yields_complexBase? context site base).mono fun found h => ?_) ?_
  · refine Option.eq_none_iff_forall_ne_some.2 fun ⟨located, type⟩ heq => ?_
    exact hbase located type (h located type heq)
  · rintro _ rfl
    dsimp only
    unfold textSchema
    rw [if_pos rfl, if_neg (by simpa using hf)]
    exact ((reports_restriction hown _).map _).map _

section

variable {expand : Expansions} (he : ExpansionsReport context r place expand) {site : Site}
  {base : QName} {located : Located NamedType} {type : ComplexType}
  (hl : context.linkage.IsComplex site.scope base located type)
include he hl

theorem reports_collectBase {inheritance : Inheritance}
    (hpath : ReflTransGen context.linkage.Step (located.file, .complex inheritance type) place)
    (shape : Shape) :
    Reports context r (collectBase context expand site inheritance base shape) := by
  obtain ⟨hb, hfound, htype⟩ := hl
  unfold collectBase
  rw [hb, if_neg Bool.false_ne_true, hfound]
  refine .found ?_
  rw [htype]
  exact (he.base site inheritance located type shape hpath).visiting

theorem reports_collectText
    (hpath : ReflTransGen context.linkage.Step (located.file, .complex .everything type) place)
    (derivation : Derivation) (facets : List Facet) (shape : Shape) :
    Reports context r (collectText context expand site base derivation facets shape) := by
  unfold collectText
  rw [complexBase?_eq hl, pure_bind]
  refine .before (he.base site .everything located type shape hpath).visiting fun shape => ?_
  exact ite_of_both (P := Notes context.file.filename) (isClosed_notes.pure _)
    (isClosed_notes.narrowText context site _ _ shape)

/-- A restriction in the base of some content is reported with the content. -/
theorem reports_base {content : Content} (hb : content.base? = some base)
    {inheritance : Inheritance} (hpath : ReflTransGen context.linkage.Step
      (located.file, .complex (content.inherited inheritance) type) place) (shape : Shape) :
    Reports context r (collectContent context expand site inheritance shape content) := by
  have hrest : ∀ p shape, Notes context.file.filename
      (if inheritance = .everything then collectParticle context expand site .once false shape p
        else pure shape) := fun p shape =>
    ite_of_both (isClosed_notes.collectParticle context expand he.notes site .once false shape p)
      (isClosed_notes.pure shape)
  cases content with
  | empty => exact nomatch hb
  | particle p => exact nomatch hb
  | extension name p? =>
      obtain rfl := Option.some.inj hb
      unfold collectContent
      cases p? with
      | none => exact reports_collectBase he hl hpath shape
      | some p => exact .before (reports_collectBase he hl hpath shape) (hrest p)
  | restriction name p? =>
      obtain rfl := Option.some.inj hb
      unfold collectContent
      cases p? with
      | none => exact reports_collectBase he hl hpath shape
      | some p => exact .before (reports_collectBase he hl hpath shape) (hrest p)
  | simple name derivation facets =>
      obtain rfl := Option.some.inj hb
      unfold collectContent
      exact reports_collectText he hl hpath derivation facets shape

end

/-! ### Content models -/

theorem reports_collectGroupRef {expand : Expansions} (he : ExpansionsReport context r place expand)
    {site : Site} {reference : QName} {located : Located NamedGroup}
    (hl : context.linkage.group? site.scope reference = some located)
    (hpath : ReflTransGen context.linkage.Step (located.file, .namedGroup located.declaration)
      place) {bounds : Bounds} (hm : bounds.most ≠ .zero) (nested : Bool) (shape : Shape) :
    Reports context r (collectGroupRef context expand site reference bounds nested shape) := by
  unfold collectGroupRef
  rw [hl]
  refine .found (.visiting ?_)
  split
  · exact (he.group site located .once true {} Limit.one_ne_zero hpath).map _
  · exact he.group site located bounds nested shape hm hpath

/-- The way to a place leads on from a term. -/
def LeadsFrom (l : Linkage) (scope : File) (place : StatedPart) : Term → Prop
  | .element declaration => ReflTransGen l.Step (scope, .element declaration) place
  | .group group => ReflTransGen l.Step (scope, .modelGroup group) place
  | .groupRef name => ∃ located, l.group? scope name = some located ∧
      ReflTransGen l.Step (located.file, .namedGroup located.declaration) place
  | .elementRef _ => False
  | .any => False

/-- The way to a place leads on from the type of an element. -/
def LeadsInto (l : Linkage) (scope : File) (place : StatedPart) : ElementType → Prop
  | .simple type => ReflTransGen l.Step (scope, .simple type) place
  | .complex type => ReflTransGen l.Step (scope, .complex .everything type) place
  | .named _ => False
  | .any => False

/-- The way to a place that states a restriction leads from a particle to its term, if the particle
can occur. -/
theorem leadsFrom_of_particle (h : r.IsStatedAt context place) {scope : File} {p : Particle}
    (hpath : ReflTransGen context.linkage.Step (scope, .particle p) place) :
    p.most ≠ .zero ∧ LeadsFrom context.linkage scope place p.term := by
  rcases hpath.cases_head with rfl | ⟨next, hstep, hrest⟩
  · exact nomatch h.states
  cases hstep with
  | element hm ht => exact ⟨hm, ht ▸ hrest⟩
  | nested hm ht => exact ⟨hm, ht ▸ hrest⟩
  | group hm ht hl => exact ⟨hm, ht ▸ ⟨_, hl, hrest⟩⟩

theorem leadsInto_of_element (h : r.IsStatedAt context place) {scope : File}
    {declaration : Element}
    (hpath : ReflTransGen context.linkage.Step (scope, .element declaration) place) :
    LeadsInto context.linkage scope place declaration.type := by
  rcases hpath.cases_head with rfl | ⟨next, hstep, hrest⟩
  · exact nomatch h.states
  cases hstep with
  | simpleType ht => exact ht ▸ hrest
  | complexType ht => exact ht ▸ hrest

theorem exists_particle_of_modelGroup (h : r.IsStatedAt context place) {scope : File}
    {group : ModelGroup}
    (hpath : ReflTransGen context.linkage.Step (scope, .modelGroup group) place) :
    ∃ p ∈ group.particles, ReflTransGen context.linkage.Step (scope, .particle p) place := by
  rcases hpath.cases_head with rfl | ⟨next, hstep, hrest⟩
  · exact nomatch h.states
  cases hstep with
  | groupParticle hp => exact ⟨_, hp, hrest⟩

mutual

/-- A restriction in a complex type is reported with the type. -/
theorem reports_collectComplex (h : r.IsStatedAt context place) {expand : Expansions}
    (he : ExpansionsReport context r place expand) {site : Site} {inheritance : Inheritance}
    (shape : Shape) : ∀ type : ComplexType,
      ReflTransGen context.linkage.Step (site.scope, .complex inheritance type) place →
      Reports context r (collectComplex context expand site inheritance shape type)
  | ⟨content, attributes, anyAttribute, mixed⟩, hpath => by
      have hattributes : ∀ shape : Shape, Notes context.file.filename (do
          let shape ← collectAttributes context site attributes shape
          return if anyAttribute then { shape with isOpen := true } else shape) := fun shape =>
        isClosed_notes.map _ (isClosed_notes.collectAttributes context site attributes shape)
      have collected : Reports context r (do
          let shape ← collectContent context expand site inheritance shape content
          let shape ← collectAttributes context site attributes shape
          return if anyAttribute then { shape with isOpen := true } else shape) := by
        rcases hpath.cases_head with rfl | ⟨next, hstep, hrest⟩
        · obtain ⟨scope, base, facets⟩ := r
          obtain ⟨hscope, hstates, hown, hapart⟩ := h
          dsimp only at hscope hstates hown
          subst hscope
          cases hstates with
          | content hc hf =>
              dsimp only at hc
              subst hc
              refine .before ?_ hattributes
              unfold collectContent
              exact reports_facets expand hown hf (fun located type hl =>
                hapart ⟨_, _, _, located, type, rfl, hl⟩) shape
        · cases hstep with
          | complexUse hu =>
              exact .after fun shape => (reports_collectAttributes h site hrest hu shape).map _
          | complexBase hb hl => exact .before (reports_base he hl hb hrest shape) hattributes
          | content hp =>
              exact .before (reports_collectContent h he shape content ⟨_, hp, hrest⟩) hattributes
      unfold collectComplex
      exact ite_of_both (P := Reports context r) (.after fun _ => collected) collected

/-- A restriction in the particle of some content is reported with the content. -/
theorem reports_collectContent (h : r.IsStatedAt context place) {expand : Expansions}
    (he : ExpansionsReport context r place expand) {site : Site} (shape : Shape) :
    ∀ content : Content, (∃ p, content.particle? = some p ∧
      ReflTransGen context.linkage.Step (site.scope, .particle p) place) →
      Reports context r (collectContent context expand site .everything shape content)
  | .particle p, hpath => by
      obtain ⟨_, hp, hpath⟩ := hpath
      obtain rfl := Option.some.inj hp
      unfold collectContent
      exact reports_collectParticle h he Limit.one_ne_zero false shape p hpath
  | .extension base (some p), hpath => by
      obtain ⟨_, hp, hpath⟩ := hpath
      obtain rfl := Option.some.inj hp
      unfold collectContent
      exact .after fun shape => reports_collectParticle h he Limit.one_ne_zero false shape p hpath
  | .restriction base (some p), hpath => by
      obtain ⟨_, hp, hpath⟩ := hpath
      obtain rfl := Option.some.inj hp
      unfold collectContent
      exact .after fun shape => reports_collectParticle h he Limit.one_ne_zero false shape p hpath
  | .empty, hpath => nomatch hpath
  | .extension _ none, hpath => nomatch hpath
  | .restriction _ none, hpath => nomatch hpath
  | .simple _ _ _, hpath => nomatch hpath

theorem reports_collectParticle (h : r.IsStatedAt context place) {expand : Expansions}
    (he : ExpansionsReport context r place expand) {site : Site} {outer : Bounds}
    (ho : outer.most ≠ .zero) (nested : Bool) (shape : Shape) : ∀ p : Particle,
      ReflTransGen context.linkage.Step (site.scope, .particle p) place →
      Reports context r (collectParticle context expand site outer nested shape p)
  | ⟨least, most, term⟩, hpath => by
      obtain ⟨hm, hterm⟩ := leadsFrom_of_particle h hpath
      have hbounds : (Bounds.times ⟨least, most⟩ outer).most ≠ .zero := Limit.times_ne_zero hm ho
      unfold collectParticle
      dsimp only
      rw [if_neg hbounds]
      exact reports_collectTerm h he hbounds nested shape term hterm

theorem reports_collectTerm (h : r.IsStatedAt context place) {expand : Expansions}
    (he : ExpansionsReport context r place expand) {site : Site} {bounds : Bounds}
    (hm : bounds.most ≠ .zero) (nested : Bool) (shape : Shape) : ∀ term : Term,
      LeadsFrom context.linkage site.scope place term →
      Reports context r (collectTerm context expand site bounds nested shape term)
  | .element declaration, hpath => by
      unfold collectTerm
      exact .before (reports_elementSchema h he declaration hpath) fun _ =>
        isClosed_notes.addElement context site _ _ shape
  | .group group, hpath => by
      unfold collectTerm
      exact reports_collectGroup h he hm nested shape group hpath
  | .groupRef reference, hpath => by
      obtain ⟨located, hl, hpath⟩ := hpath
      unfold collectTerm
      exact reports_collectGroupRef he hl hpath hm nested shape
  | .elementRef _, hpath => hpath.elim
  | .any, hpath => hpath.elim

theorem reports_collectGroup (h : r.IsStatedAt context place) {expand : Expansions}
    (he : ExpansionsReport context r place expand) {site : Site} {bounds : Bounds}
    (hm : bounds.most ≠ .zero) (nested : Bool) (shape : Shape) : ∀ group : ModelGroup,
      ReflTransGen context.linkage.Step (site.scope, .modelGroup group) place →
      Reports context r (collectGroup context expand site bounds nested shape group)
  | ⟨.choice, particles⟩, hpath => by
      have hp := exists_particle_of_modelGroup h hpath
      unfold collectGroup
      refine ite_of_both (P := Reports context r) (.after fun _ => ?_) (.before ?_ ?_)
      · have hnone : bounds.orNone.most ≠ .zero := hm
        exact reports_collectParticles h he hnone nested shape particles hp
      · have hone : ({ bounds with least := .one } : Bounds).most ≠ .zero := hm
        exact reports_collectBranches h he hone particles hp
      · exact fun branches =>
          isClosed_notes.addChoice context site bounds.isRequired branches shape
  | ⟨.sequence, particles⟩, hpath => by
      unfold collectGroup
      exact reports_collectParticles h he hm nested shape particles
        (exists_particle_of_modelGroup h hpath)
  | ⟨.all, particles⟩, hpath => by
      unfold collectGroup
      exact reports_collectParticles h he hm nested shape particles
        (exists_particle_of_modelGroup h hpath)

theorem reports_collectParticles (h : r.IsStatedAt context place) {expand : Expansions}
    (he : ExpansionsReport context r place expand) {site : Site} {outer : Bounds}
    (ho : outer.most ≠ .zero) (nested : Bool) (shape : Shape) : ∀ particles : List Particle,
      (∃ p ∈ particles, ReflTransGen context.linkage.Step (site.scope, .particle p) place) →
      Reports context r (collectParticles context expand site outer nested shape particles)
  | [], hpath => by simp at hpath
  | p :: rest, hpath => by
      unfold collectParticles
      rcases (List.exists_mem_cons_iff _ _ _).1 hpath with hpath | hpath
      · exact .before (reports_collectParticle h he ho nested shape p hpath) fun shape =>
          isClosed_notes.collectParticles context expand he.notes site outer nested shape rest
      · exact .after fun shape => reports_collectParticles h he ho nested shape rest hpath

theorem reports_collectBranches (h : r.IsStatedAt context place) {expand : Expansions}
    (he : ExpansionsReport context r place expand) {site : Site} {outer : Bounds}
    (ho : outer.most ≠ .zero) : ∀ particles : List Particle,
      (∃ p ∈ particles, ReflTransGen context.linkage.Step (site.scope, .particle p) place) →
      Reports context r (collectBranches context expand site outer particles)
  | [], hpath => by simp at hpath
  | p :: rest, hpath => by
      unfold collectBranches
      rcases (List.exists_mem_cons_iff _ _ _).1 hpath with hpath | hpath
      · exact .before (reports_collectParticle h he ho true {} p hpath) fun _ =>
          isClosed_notes.map _
            (isClosed_notes.collectBranches context expand he.notes site outer rest)
      · exact .after fun _ => (reports_collectBranches h he ho rest hpath).map _

theorem reports_elementSchema (h : r.IsStatedAt context place) {expand : Expansions}
    (he : ExpansionsReport context r place expand) {site : Site} : ∀ declaration : Element,
      ReflTransGen context.linkage.Step (site.scope, .element declaration) place →
      Reports context r (elementSchema context expand site declaration)
  | ⟨name, _, type, nillable, default, fixed, documentation⟩, hpath => by
      unfold elementSchema
      exact .before (reports_elementTypeSchema h he name.name type (leadsInto_of_element h hpath))
        fun _ => isClosed_notes.map _ (isClosed_notes.elementKeywords context
          (isClosed_notes.spaceOf? context) site type default fixed documentation)

theorem reports_elementTypeSchema (h : r.IsStatedAt context place) {expand : Expansions}
    (he : ExpansionsReport context r place expand) {site : Site} (elementName : String) :
    ∀ type : ElementType, LeadsInto context.linkage site.scope place type →
      Reports context r (elementTypeSchema context expand site elementName type)
  | .simple type, hpath => by
      unfold elementTypeSchema
      exact reports_simpleSchema h elementName hpath
  | .complex type, hpath => by
      unfold elementTypeSchema
      exact (reports_collectComplex h he {} type hpath).map _
  | .named _, hpath => hpath.elim
  | .any, hpath => hpath.elim

end

variable (h : r.IsStatedAt context place)
include h

theorem reports_expansions : ∀ depth : Nat,
    ExpansionsReport context r place (expansions context depth)
  | 0 => ⟨isClosed_notes.expansions context 0, fun _ _ _ _ _ _ => .throw,
      fun _ _ _ _ _ _ _ => .throw⟩
  | depth + 1 => by
      refine ⟨isClosed_notes.expansions context _, fun site inheritance located type shape hpath =>
        reports_collectComplex h (reports_expansions depth) shape type hpath,
        fun site located bounds nested shape hm hpath => ?_⟩
      rcases hpath.cases_head with rfl | ⟨next, hstep, hrest⟩
      · exact nomatch h.states
      cases hstep with
      | definition =>
          exact reports_collectGroup h (reports_expansions depth) hm nested shape _ hrest

/-! ### Declarations -/

theorem reports_simpleType {t : NamedType} {type : SimpleType} (hd : t.definition = .simple type)
    (hpath : ReflTransGen context.linkage.Step (context.file, .simple type) place) :
    Reports context r (typeDefinition context t) := by
  unfold typeDefinition
  rw [hd]
  exact (reports_simpleSchema h _ hpath).visiting.map _

theorem reports_complexType {t : NamedType} {type : ComplexType} (hd : t.definition = .complex type)
    (hpath : ReflTransGen context.linkage.Step (context.file, .complex .everything type) place) :
    Reports context r (typeDefinition context t) := by
  unfold typeDefinition
  rw [hd]
  exact ((reports_collectComplex h (reports_expansions h _) {} type hpath).map _).visiting.map _

theorem reports_groupDefinition {g : NamedGroup}
    (hpath : ReflTransGen context.linkage.Step (context.file, .namedGroup g) place) :
    Reports context r (groupDefinition context g) := by
  rcases hpath.cases_head with rfl | ⟨next, hstep, hrest⟩
  · exact nomatch h.states
  cases hstep with
  | definition =>
      exact (reports_collectGroup h (reports_expansions h _) Limit.one_ne_zero true {} g.group
        hrest).visiting.map _

theorem reports_elementProperty {e : Element}
    (hpath : ReflTransGen context.linkage.Step (context.file, .element e) place) :
    Reports context r (elementProperty context e) :=
  (reports_elementSchema h (reports_expansions h _) e hpath).map _

omit h in
/-- What is reported with one of some declarations is reported with all of them. -/
theorem isReported_convertEach {convert : α → Conversion (String × Json)}
    (hs : ∀ a, Steady (convert a)) (hn : ∀ a, Notes context.file.filename (convert a)) {as : List α}
    {a : α} (ha : a ∈ as) (hr : Reports context r (convert a))
    (hok : (outcome (convert a)).isOk = true) (diagnostics : List Problem) :
    r.IsReported context (convertEach convert as diagnostics).diagnostics := by
  obtain ⟨before, hkept⟩ := noted_convertEach hn ha diagnostics
  have houtcome := (hs a).outcome_eq before
  cases ho : outcome (convert a) with
  | error p =>
      rw [ho] at hok
      exact nomatch hok
  | ok entry => exact (hr _ _ entry (Prod.ext (houtcome.trans ho) rfl)).mono hkept

/-- In a file that is converted without anything fatal, every restriction that the conversion comes
upon in the file itself is reported. -/
theorem isReported_convertFile (hvisits : context.linkage.Visits context.file place)
    (hfine : ∀ p ∈ (convertFile context).2, p.isFatal = false) :
    r.IsReported context (convertFile context).2 := by
  obtain ⟨htypes, hgroups, helements⟩ := (convertFile_fine_iff context).1 hfine
  obtain ⟨htypesKept, hgroupsKept, -⟩ := fileNotes context
  have hnoted : r.IsReported context (elementOutcome context).diagnostics →
      r.IsReported context (convertFile context).2 := fun hr =>
    hr.mono (convertFile_snd context ▸ List.subset_append_right _ _)
  have type : ∀ {t : NamedType}, t ∈ context.file.schema.types →
      Reports context r (typeDefinition context t) →
      r.IsReported context (typeOutcome context).diagnostics := fun ht hr =>
    isReported_convertEach (isClosed_steady.typeDefinition context)
      (isClosed_notes.typeDefinition context) ht hr (htypes _ ht) []
  obtain ⟨part, hdescribed, hpath⟩ := hvisits
  refine hnoted ?_
  cases hdescribed with
  | simple ht hd => exact (type ht (reports_simpleType h hd hpath)).mono htypesKept
  | complex ht hd => exact (type ht (reports_complexType h hd hpath)).mono htypesKept
  | @group g hg hr =>
      have hg : g ∈ reusedGroups context := List.mem_filter.2 ⟨hg, hr⟩
      exact (isReported_convertEach (isClosed_steady.groupDefinition context)
        (isClosed_notes.groupDefinition context) hg (reports_groupDefinition h hpath)
        (hgroups _ hg) _).mono hgroupsKept
  | element he =>
      exact isReported_convertEach (isClosed_steady.elementProperty context)
        (isClosed_notes.elementProperty context) he (reports_elementProperty h hpath)
        (helements _ he) _

end Conversion

end Crosswalk
