import Crosswalk.Proofs.Content.Word
import Crosswalk.Proofs.Conversion.Both
import Crosswalk.Proofs.Conversion.Notes
import Crosswalk.Proofs.Linkage.Parts

/-!
# What is reported about restrictions

The conversion of a file notes every issue of the facets that the file states, wherever it comes
upon them: not at all places where a restriction has an effect, for what other files state is passed
over, but at those that the conversion goes through in the file itself. The induction follows the
way from a part to the restriction. Each conversion on the way has to result in something; how deep
expansions are allowed to nest does then not matter.
-/

namespace Crosswalk

namespace Conversion

open Relation

variable {α β : Type} {context : Context}

/-- A restriction: the base, the facets and the file that states them. -/
structure Restriction where
  scope : File
  base : SimpleBase
  facets : List Facet

/-- The problem that an issue is reported as. -/
def issueProblem (scope : File) (typeName : String) : FacetIssue → Problem
  | .widening facet baseValue value =>
    .widening scope.filename typeName facet.name baseValue value
  | issue => .unsupported scope.filename (simpleLocation typeName) (issueText issue)

theorem recordIssue_eq {scope : File} (h : isOwn context scope = true) (typeName : String)
    (issue : FacetIssue) :
    recordIssue context scope typeName issue = record (issueProblem scope typeName issue) := by
  cases issue with
  | widening facet baseValue value => exact if_pos h
  | _ => exact if_pos h

namespace Restriction

/-- The shape that the restriction starts from. -/
def Inherits (r : Restriction) (context : Context) (inherited : SimpleShape) : Prop :=
  ∃ typeName report s t, run (baseShape context (expandSimple context (simpleDepth context))
    r.scope typeName report r.base) s = (.ok inherited, t)

/-- The restriction starts from some shape, and what is at issue then is reported. -/
def IsReported (r : Restriction) (context : Context) (diagnostics : List Problem) : Prop :=
  ∃ inherited typeName, r.Inherits context inherited ∧
    ∀ issue ∈ (inherited.restrict r.facets).2, issueProblem r.scope typeName issue ∈ diagnostics

variable {r : Restriction} {context' : Context}

/-- What is at issue does not depend on the document that is made. -/
theorem Inherits.issues_eq (hlinkage : context.linkage = context'.linkage) {a b : SimpleShape}
    (ha : r.Inherits context a) (hb : r.Inherits context' b) (facets : List Facet) :
    (a.restrict facets).2 = (b.restrict facets).2 := by
  obtain ⟨typeName, report, s, t, ha⟩ := ha
  obtain ⟨typeName', report', s', t', hb⟩ := hb
  exact (both_baseShape hlinkage (both_expandSimple hlinkage _ _) r.scope typeName typeName' report
    report' r.base s t a s' t' b ha hb).issues facets

theorem IsReported.mono {ds ds' : List Problem} (h : r.IsReported context ds) (hds : ds ⊆ ds') :
    r.IsReported context ds' := by
  obtain ⟨inherited, typeName, hinherits, hissues⟩ := h
  exact ⟨inherited, typeName, hinherits, fun issue hi => hds (hissues issue hi)⟩

end Restriction

/-- If the conversion results in something, the restriction is reported. -/
def Reports (context : Context) (r : Restriction) (c : Conversion α) : Prop :=
  ∀ s t a, run c s = (.ok a, t) → r.IsReported context t.diagnostics

namespace Reports

variable {r : Restriction} {c : Conversion α} {f : α → Conversion β}

theorem throw {p : Problem} : Reports context r (MonadExcept.throw p : Conversion α) :=
  fun _ _ _ h => nomatch (Prod.ext_iff.1 h).1

/-- What is noted first stays noted. -/
theorem before (hc : Reports context r c) (hf : ∀ a, Notes context.file.filename (f a)) :
    Reports context r (c >>= f) := by
  intro s t b h
  obtain ⟨a, u, hu, ht⟩ := run_bind_ok h
  have hkeeps := (hf a).keeps u
  rw [ht] at hkeeps
  exact (hc s u a hu).mono hkeeps

theorem bind {P : α → Prop} (hc : Yields c P) (hf : ∀ a, P a → Reports context r (f a)) :
    Reports context r (c >>= f) := by
  intro s t b h
  obtain ⟨a, u, hu, ht⟩ := run_bind_ok h
  exact hf a (hc s u a hu) u t b ht

theorem after (hf : ∀ a, Reports context r (f a)) : Reports context r (c >>= f) :=
  bind Yields.trivial fun a _ => hf a

theorem map (hc : Reports context r c) (f : α → β) :
    Reports context r (c >>= fun a => Pure.pure (f a)) :=
  hc.before fun _ => isClosed_notes.pure _

/-- What is found is what the name stands for. -/
theorem found {scope : File} {referencing : String} {name : QName} {a : α}
    (hf : Reports context r (f a)) :
    Reports context r (Conversion.found scope referencing name (some a) >>= f) :=
  bind (Yields.found (P := (· = a)) fun _ h => (Option.some.inj h).symm) fun _ h => h ▸ hf

theorem visiting {kind : Expandable} {scope : File} {name : QName} (hc : Reports context r c) :
    Reports context r (Conversion.visiting kind scope name c) := by
  intro s t a h
  rw [run_visiting] at h
  split at h
  · exact nomatch (Prod.ext_iff.1 h).1
  · obtain ⟨ha, rfl⟩ := Prod.mk.inj h
    exact hc (entering kind name s) (run c (entering kind name s)).2 a (Prod.ext ha rfl)

end Reports

/-! ### Simple types -/

/-- Issues that are recorded in turn are noted. -/
theorem noted_recordIssues {scope : File} (h : isOwn context scope = true) (typeName : String)
    (issues : List FacetIssue) : ∀ s, ∀ issue ∈ issues, issueProblem scope typeName issue ∈
      (run (recordIssues context scope typeName issues) s).2.diagnostics := by
  induction issues with
  | nil => exact fun _ issue hi => absurd hi List.not_mem_nil
  | cons first rest ih =>
      intro s issue hi
      have hkeeps := (isClosed_notes.recordIssues context scope typeName rest).keeps
      rw [recordIssues, recordIssue_eq h, run_bind, run_record]
      rcases List.mem_cons.1 hi with rfl | hi
      · refine hkeeps _ ?_
        split
        · assumption
        · exact List.mem_append_right _ List.mem_cons_self
      · exact ih _ issue hi

variable {target : StatedPart} {base : SimpleBase} {facets : List Facet}

theorem reports_recordIssues {scope : File} (hown : isOwn context scope = true)
    {inherited : SimpleShape}
    (h : (⟨scope, base, facets⟩ : Restriction).Inherits context inherited) (typeName : String) :
    Reports context ⟨scope, base, facets⟩
      (recordIssues context scope typeName (inherited.restrict facets).2) := by
  intro s t a hrun
  refine ⟨inherited, typeName, h, fun issue hi => ?_⟩
  have hnoted := noted_recordIssues hown typeName (inherited.restrict facets).2 s issue hi
  rwa [hrun] at hnoted

/-- A restriction that the file states itself is reported where it is converted. -/
theorem reports_restriction {scope : File} (hown : isOwn context scope = true) (typeName : String) :
    Reports context ⟨scope, base, facets⟩ (shapeWith context
      (expandSimple context (simpleDepth context)) scope typeName true
      (.restriction base facets)) := by
  unfold shapeWith
  refine .bind (P := (⟨scope, base, facets⟩ : Restriction).Inherits context)
    (fun s t a h => ⟨typeName, true, s, t, h⟩) fun inherited h => ?_
  exact (reports_recordIssues hown h typeName).map fun _ => (inherited.restrict facets).1

/-- The file whose document is made states the restriction at a place, and not as a limit to what a
complex type has. -/
structure Restriction.IsStatedAt (r : Restriction) (context : Context) (place : StatedPart) :
    Prop where
  scope : place.1 = r.scope
  states : place.2.States r.base r.facets
  own : isOwn context r.scope = true
  apart : ¬ context.linkage.Narrows place

/-- The way to a place leads through the base, which has no name. -/
def LeadsThrough (l : Linkage) (scope : File) (place : StatedPart) : SimpleBase → Prop
  | .inline type => ReflTransGen l.Step (scope, .simple type) place
  | .named _ => False

section

variable {r : Restriction} {place : StatedPart}

mutual

/-- A restriction in a simple type is reported with the type. -/
theorem reports_shapeWith (h : r.IsStatedAt context place) {scope : File} (typeName : String) :
    ∀ type : SimpleType,
    ReflTransGen context.linkage.Step (scope, .simple type) place →
      Reports context r (shapeWith context (expandSimple context (simpleDepth context)) scope
        typeName true type)
  | .restriction base facets, hpath => by
      rcases hpath.cases_head with rfl | ⟨next, hstep, hrest⟩
      · obtain ⟨rscope, rbase, rfacets⟩ := r
        obtain ⟨hscope, hstates, hown, -⟩ := h
        dsimp only at hscope hstates hown
        subst hscope
        cases hstates with
        | type => exact reports_restriction hown typeName
      · have hbase : LeadsThrough context.linkage scope place base := by
          cases hstep with
          | base => exact hrest
        unfold shapeWith
        exact .before (reports_baseShape h typeName base hbase) fun inherited => isClosed_notes.bind
          (isClosed_notes.recordIssues context scope typeName _) fun _ => isClosed_notes.pure _
  | .list item, hpath => by
      rcases hpath.cases_head with rfl | ⟨next, hstep, hrest⟩
      · exact nomatch h.states
      · have hitem : LeadsThrough context.linkage scope place item := by
          cases hstep with
          | item => exact hrest
        unfold shapeWith
        exact (reports_baseSchemaWith h typeName item hitem).map _
  | .union members, hpath => by
      rcases hpath.cases_head with rfl | ⟨next, hstep, hrest⟩
      · exact nomatch h.states
      · have hmembers : ∃ base ∈ members, LeadsThrough context.linkage scope place base := by
          cases hstep with
          | member hm => exact ⟨_, hm, hrest⟩
        unfold shapeWith
        exact (reports_memberSchemas h typeName members hmembers).map _

theorem reports_baseShape (h : r.IsStatedAt context place) {scope : File} (typeName : String) :
    ∀ base : SimpleBase,
    LeadsThrough context.linkage scope place base →
      Reports context r (baseShape context (expandSimple context (simpleDepth context)) scope
        typeName true base)
  | .inline type, hpath => by
      unfold baseShape
      exact reports_shapeWith h typeName type hpath
  | .named _, hpath => hpath.elim

theorem reports_baseSchemaWith (h : r.IsStatedAt context place) {scope : File} (typeName : String) :
    ∀ base : SimpleBase,
    LeadsThrough context.linkage scope place base →
      Reports context r (baseSchemaWith context (expandSimple context (simpleDepth context)) scope
        typeName true base)
  | .inline type, hpath => by
      unfold baseSchemaWith
      exact (reports_shapeWith h typeName type hpath).map _
  | .named _, hpath => hpath.elim

theorem reports_memberSchemas (h : r.IsStatedAt context place) {scope : File} (typeName : String) :
    ∀ members : List SimpleBase,
    (∃ base ∈ members, LeadsThrough context.linkage scope place base) →
      Reports context r (memberSchemas context (expandSimple context (simpleDepth context)) scope
        typeName true members)
  | [], hpath => by
      obtain ⟨_, hm, -⟩ := hpath
      exact absurd hm List.not_mem_nil
  | m :: rest, hpath => by
      unfold memberSchemas
      obtain ⟨base, hm, hpath⟩ := hpath
      rcases List.mem_cons.1 hm with heq | hm
      · exact .before (reports_baseSchemaWith h typeName m (heq ▸ hpath)) fun _ =>
          isClosed_notes.map _ (isClosed_notes.memberSchemas context _
            (isClosed_notes.expandSimple context _) scope typeName true rest)
      · exact .after fun _ => (reports_memberSchemas h typeName rest ⟨base, hm, hpath⟩).map _

end

variable (h : r.IsStatedAt context place)
include h

theorem reports_simpleSchema {scope : File} (typeName : String) {type : SimpleType}
    (hpath : ReflTransGen context.linkage.Step (scope, .simple type) place) :
    Reports context r (simpleSchema context scope typeName true type) :=
  (reports_shapeWith h typeName type hpath).map _

/-! ### Attributes -/

theorem reports_attributeSchema {scope : File} {declaration : Attribute} {type : SimpleType}
    (ht : declaration.type = some (.inline type))
    (hpath : ReflTransGen context.linkage.Step (scope, .simple type) place)
    (default fixed : Option String) :
    Reports context r (attributeSchema context scope declaration default fixed) := by
  unfold attributeSchema
  rw [ht]
  exact .before (reports_simpleSchema h _ hpath) fun _ =>
    isClosed_notes.map _ (isClosed_notes.spaceOf? context scope type)

/-- A restriction in a group of attributes is reported where the group is expanded. -/
structure AttributesReport (context : Context) (r : Restriction) (place : StatedPart)
    (expand : AttributeExpansion) : Prop where
  notes : ∀ site located shape, Notes context.file.filename (expand site located shape)
  group : ∀ (site : Site) (located : Located AttributeGroup) (shape : Shape),
    ReflTransGen context.linkage.Step (site.scope, .attributeGroup located.declaration) place →
      Reports context r (expand site located shape)

theorem reports_collectUse {expand : AttributeExpansion}
    (he : AttributesReport context r place expand) (site : Site) (shape : Shape)
    {use : AttributeUse}
    (hpath : ReflTransGen context.linkage.Step (site.scope, .use use) place) :
    Reports context r (collectUse context expand site shape use) := by
  unfold collectUse
  rcases hpath.cases_head with rfl | ⟨next, hstep, hrest⟩
  · exact nomatch h.states
  cases hstep with
  | declared hu ht =>
      dsimp only
      rw [if_neg hu]
      exact .before (reports_attributeSchema h ht hrest none none) fun _ =>
        isClosed_notes.addAttribute context site _ _ shape
  | reference hu hl =>
      dsimp only
      rw [hl]
      refine .found ?_
      rw [if_neg hu]
      rcases hrest.cases_head with rfl | ⟨next, hstep, hrest⟩
      · exact nomatch h.states
      cases hstep with
      | attributeType ht =>
          exact .before (reports_attributeSchema h ht hrest _ _) fun _ =>
            isClosed_notes.addAttribute context site _ _ shape
  | attributes hl =>
      dsimp only
      rw [hl]
      exact .found ((he.group { site with scope := _ } _ shape hrest).visiting.map _)

theorem reports_collectUses {expand : AttributeExpansion}
    (he : AttributesReport context r place expand) (site : Site) {use : AttributeUse}
    (hpath : ReflTransGen context.linkage.Step (site.scope, .use use) place)
    (uses : List AttributeUse) (hu : use ∈ uses) : ∀ shape : Shape,
      Reports context r (collectUses context expand site shape uses) := by
  induction uses with
  | nil => exact absurd hu List.not_mem_nil
  | cons first rest ih =>
      intro shape
      unfold collectUses
      rcases List.mem_cons.1 hu with rfl | hu
      · exact .before (reports_collectUse h he site shape hpath) fun shape =>
          isClosed_notes.collectUses context expand he.notes site shape rest
      · exact .after fun shape => ih hu shape

theorem reports_expandAttributes : ∀ depth : Nat,
    AttributesReport context r place (expandAttributes context depth)
  | 0 => ⟨isClosed_notes.expandAttributes context 0, fun _ _ _ _ => .throw⟩
  | depth + 1 => by
      refine ⟨isClosed_notes.expandAttributes context _, fun site located shape hpath => ?_⟩
      rcases hpath.cases_head with rfl | ⟨next, hstep, hrest⟩
      · exact nomatch h.states
      cases hstep with
      | groupUse hu =>
          exact reports_collectUses h (reports_expandAttributes depth) site hrest _ hu shape

theorem reports_collectAttributes (site : Site) {use : AttributeUse}
    (hpath : ReflTransGen context.linkage.Step (site.scope, .use use) place)
    {uses : List AttributeUse} (hu : use ∈ uses) (shape : Shape) :
    Reports context r (collectAttributes context site uses shape) :=
  reports_collectUses h (reports_expandAttributes h _) site hpath uses hu shape

end

end Conversion

end Crosswalk
