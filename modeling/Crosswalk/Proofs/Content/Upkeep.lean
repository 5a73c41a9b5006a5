import Crosswalk.Proofs.Content.Inheritance
import Crosswalk.Proofs.Content.Soundness
import Crosswalk.Proofs.Conversion.Tasks

/-!
# Collecting keeps shapes sound

Whatever is collected into a sound shape, the shape stays sound, as long as the bounds of what is
collected are in order. The names that are lost are those of elements that are dropped, and these
are known beforehand: particles lose the names of elements that they reach and that attributes of
the shape have, and a complex type loses what its model, or the model of a base, loses to the
attributes that are inherited from the bases before it.
-/

namespace Crosswalk

open Conversion

/-! ### Dropped elements -/

namespace UsedAttribute

variable (context : Context)

/-- The names that attributes have after a use, if they had such names before. -/
def after (there : String → Prop) (a : UsedAttribute) : String → Prop :=
  fun name => if name = a.key context then a.use ≠ .prohibited else there name

/-- The names that attributes have after some uses in order. -/
def afterAll (used : List UsedAttribute) (there : String → Prop) : String → Prop :=
  used.foldl (after context) there

variable {context} {simple : List QName}

/-- Where there is a property after some uses, one of them has left it there. -/
theorem afterAll_of_isSome {used : List UsedAttribute} {properties : AttributeProperties}
    {there : String → Prop} (hp : ∀ name, (properties name).isSome = true → there name)
    {name : String} (h : (applyAll context simple used properties name).isSome = true) :
    afterAll context used there name := by
  induction used generalizing properties there with
  | nil => exact hp name h
  | cons a rest ih =>
      refine ih (fun other ho => ?_) h
      rw [apply, Function.update_apply] at ho
      unfold after
      split_ifs at ho ⊢ with hkey hprohibited
      · exact absurd ho Bool.false_ne_true
      · exact hprohibited
      · exact hp other ho

end UsedAttribute

/-- An element of this name is dropped when content is collected into a shape whose attributes have
certain names: the model of the content, or that of a base, reaches an element of the name, and the
attributes that are inherited by then include one. -/
inductive Content.Drops (context : Context) (there : String → Prop) :
    File → Inheritance → Content → String → Prop
  | model {scope : File} {content : Content} {p : Particle} {used : List UsedAttribute}
    {place : File × Term} {name : String} (hp : content.particle? = some p)
    (h : p.Reaches context.linkage scope .one place) (hn : place.2.Names context place.1 name)
    (hi : context.linkage.Inherits scope content used)
    (ha : UsedAttribute.afterAll context used there name) :
    Drops context there scope .everything content name
  | base {scope : File} {inheritance : Inheritance} {content : Content}
    {located : Located NamedType} {base : ComplexType} {name : String}
    (hb : context.linkage.IsBase scope content located base)
    (h : Drops context there located.file (content.inherited inheritance) base.content name) :
    Drops context there scope inheritance content name

/-- An element of this name is dropped when some terms are collected into a shape: they have such an
element, and the shape has an attribute of the name. -/
def Shape.Drops (context : Context) (terms : File × Term → Prop) (s : Shape) (name : String) :
    Prop :=
  s.HasAttribute name ∧ ∃ place, terms place ∧ place.2.Names context place.1 name

namespace Shape

/-- What some terms drop is lost. -/
def Loses (context : Context) (lost : String → Prop) (s : Shape) (terms : File × Term → Prop) :
    Prop :=
  ∀ name, s.Drops context terms name → lost name

variable {context : Context} {terms terms' : File × Term → Prop} {lost : String → Prop}
  {s t r : Shape} {name : String}

theorem not_drops_empty (name : String) : ¬ Drops context terms {} name :=
  fun h => not_hasAttribute_empty name h.1

/-- Fewer terms drop less. -/
theorem Loses.mono (h : s.Loses context lost terms) (ht : ∀ place, terms' place → terms place) :
    s.Loses context lost terms' :=
  fun name ⟨ha, place, hp, hn⟩ => h name ⟨ha, place, ht place hp, hn⟩

/-- What terms bring has the attributes that were there before. -/
theorem Loses.of_brings (h : s.Loses context lost terms) (hb : Brings context terms' s t) :
    t.Loses context lost terms := by
  rintro name ⟨ha, hn⟩
  rw [HasAttribute, hb.attributes] at ha
  exact h name ⟨ha, hn⟩

theorem isSome_attributeProperties :
    (s.attributeProperties name).isSome = true ↔ s.HasAttribute name := by
  rw [attributeProperties, Option.isSome_map, ← Option.ne_none_iff_isSome, Ne,
    Table.find?_eq_none_iff, not_not]
  rfl

/-- The attributes behind some uses are those that the uses leave there. -/
theorem Acquires.hasAttribute {simple : List QName} {named : String → Prop} {opens : Prop}
    {used : List UsedAttribute} (h : Acquires context simple named opens used s r)
    (hd : r.names.Nodup) (ha : r.HasAttribute name) :
    UsedAttribute.afterAll context used s.HasAttribute name := by
  have hsome := isSome_attributeProperties.2 ha
  rw [h.properties name (ha.not_hasElement hd)] at hsome
  exact UsedAttribute.afterAll_of_isSome (fun _ => isSome_attributeProperties.1) hsome

end Shape

namespace Conversion

open Shape

variable {context : Context} {lost : String → Prop} {s t : Shape}

/-- Expansions keep shapes sound. -/
structure KeepsSound (context : Context) (expand : Expansions) : Prop where
  ordered : context.linkage.IsOrdered
  takes : ∀ simple, TakesBases context simple expand
  base : ∀ (site : Site) (inheritance : Inheritance) (located : Located NamedType)
    (type : ComplexType) {lost : String → Prop} {s : Shape}, type.IsOrdered → s.IsSound lost →
      (∀ name, type.content.Drops context s.HasAttribute located.file inheritance name →
        lost name) →
      Yields (expand.base site inheritance located type s) (IsSound lost)
  group : ∀ (site : Site) (located : Located NamedGroup) (bounds : Bounds) (nested : Bool)
    {lost : String → Prop} {s : Shape}, (bounds.most ≠ .zero → bounds.IsOrdered) →
      located.declaration.group.IsOrdered → s.IsSound lost →
      s.Loses context lost (ReachedBy context.linkage located.file bounds.most
        located.declaration.group.particles) →
      Yields (expand.group site located bounds nested s) (IsSound lost)

theorem KeepsSound.gathers {expand : Expansions} (he : KeepsSound context expand) :
    GathersGroups context expand := (he.takes []).group

/-! ### Particles -/

theorem sound_addElement (site : Site) (name : String) (item : Json) {bounds : Bounds}
    (hb : bounds.IsOrdered) (hs : s.IsSound lost) :
    Yields (addElement context site name (.ofElement item bounds) s) (IsSound lost) :=
  (does_addElement context site name _ s).yields.mono fun _ hr =>
    hr ▸ hs.andThen name (Slot.isSound_ofElement item hb)

theorem sound_collectElementRef (site : Site) (reference : QName) {bounds : Bounds}
    (hb : bounds.IsOrdered) (hs : s.IsSound lost) :
    Yields (collectElementRef context site reference bounds s) (IsSound lost) := by
  unfold collectElementRef
  exact Yields.bind_any fun _ => sound_addElement site _ _ hb hs

section

variable {expand : Expansions}

theorem sound_collectGroupRef (he : KeepsSound context expand) (site : Site) (reference : QName)
    {bounds : Bounds} (hb : bounds.IsOrdered) (nested : Bool) (hs : s.IsSound lost)
    (hd : s.Loses context lost
      ((Term.groupRef reference).Reaches context.linkage site.scope bounds.most)) :
    Yields (collectGroupRef context expand site reference bounds nested s) (IsSound lost) := by
  unfold collectGroupRef
  refine (Yields.found fun located hl => hl).bind fun located hl => Yields.visiting ?_
  have inside : s.Loses context lost (ReachedBy context.linkage located.file bounds.most
      located.declaration.group.particles) :=
    hd.mono fun place hp => (Term.reaches_iff_of_holds (.reference hl)).2 (.inr hp)
  split
  · exact Yields.bind_any fun members => Yields.pure (hs.addReference members _)
  · exact he.group site located bounds nested (fun _ => hb) (he.ordered.group hl) hs inside

/-- A choice is added whose branches are sound when they are collected on their own. They have no
attributes, and what they drop is lost. -/
theorem sound_choice (he : KeepsSound context expand) (site : Site) {bounds : Bounds}
    {particles : List Particle}
    (hb : Yields (collectBranches context expand site { bounds with least := .one } particles)
      fun branches => ∀ branch ∈ branches, branch.IsSound fun _ => False)
    (hs : s.IsSound lost)
    (hd : s.Loses context lost (ReachedBy context.linkage site.scope bounds.most particles)) :
    Yields ((Intake.choice bounds particles).collect context expand site s) (IsSound lost) := by
  refine (hb.and (areBranches_collectBranches he.gathers site _ particles)).bind ?_
  rintro branches ⟨hsound, hb⟩
  refine (does_addChoice context site _ branches s).yields.mono fun r hr =>
    hr ▸ hs.withChoice hsound hb.attributes (fun branch hm name hn ha => ?_) _
  exact hd name ⟨ha, hb.elements branch hm name hn⟩

mutual

theorem sound_collectParticle (he : KeepsSound context expand) (site : Site) {outer : Bounds}
    (ho : outer.most ≠ .zero → outer.IsOrdered) (nested : Bool) {lost : String → Prop} {s : Shape}
    (hs : s.IsSound lost) : ∀ p : Particle, p.IsOrdered →
      s.Loses context lost (p.Reaches context.linkage site.scope outer.most) →
      Yields (collectParticle context expand site outer nested s p) (IsSound lost)
  | ⟨least, most, term⟩, hp, hd => by
      unfold collectParticle
      dsimp only
      split
      · exact Yields.pure hs
      · next hm =>
          have houter : outer.most ≠ .zero := fun hz => hm <| by
            rw [Bounds.times, hz, Limit.times_comm, Limit.zero_times]
          exact sound_collectTerm he site (hp.1.times (ho houter)) nested hs term hp.2
            (hd.mono fun _ => (Particle.reaches_iff (p := ⟨least, most, term⟩) hm).2)

theorem sound_collectTerm (he : KeepsSound context expand) (site : Site) {bounds : Bounds}
    (hb : bounds.IsOrdered) (nested : Bool) {lost : String → Prop} {s : Shape}
    (hs : s.IsSound lost) : ∀ term : Term, term.IsOrdered →
      s.Loses context lost (term.Reaches context.linkage site.scope bounds.most) →
      Yields (collectTerm context expand site bounds nested s term) (IsSound lost)
  | .element declaration, _, _ => by
      unfold collectTerm
      exact Yields.bind_any fun item => sound_addElement site _ item hb hs
  | .elementRef reference, _, _ => by
      unfold collectTerm
      exact sound_collectElementRef site reference hb hs
  | .group group, hg, hd => by
      unfold collectTerm
      exact sound_collectGroup he site (fun _ => hb) nested hs group hg
        (hd.mono fun _ hp => (Term.reaches_iff_of_holds .nested).2 (.inr hp))
  | .groupRef reference, _, hd => by
      unfold collectTerm
      exact sound_collectGroupRef he site reference hb nested hs hd
  | .any, _, _ => by
      unfold collectTerm
      exact Yields.pure (hs.congr rfl rfl)

theorem sound_collectGroup (he : KeepsSound context expand) (site : Site) {bounds : Bounds}
    (hb : bounds.most ≠ .zero → bounds.IsOrdered) (nested : Bool) {lost : String → Prop}
    {s : Shape} (hs : s.IsSound lost) : ∀ group : ModelGroup, group.IsOrdered →
      s.Loses context lost (ReachedBy context.linkage site.scope bounds.most group.particles) →
      Yields (collectGroup context expand site bounds nested s group) (IsSound lost)
  | ⟨.choice, particles⟩, hg, hd => by
      unfold collectGroup
      refine Yields.ite (Yields.bind_any fun _ => ?_) ?_
      · have hnone : bounds.orNone.IsOrdered := Bounds.isOrdered_of_zero _
        exact sound_collectParticles he site (fun _ => hnone) nested hs particles hg hd
      · exact sound_choice he site
          (sound_collectBranches he site Bounds.isOrdered_of_one particles hg) hs hd
  | ⟨.sequence, particles⟩, hg, hd => by
      unfold collectGroup
      exact sound_collectParticles he site hb nested hs particles hg hd
  | ⟨.all, particles⟩, hg, hd => by
      unfold collectGroup
      exact sound_collectParticles he site hb nested hs particles hg hd

theorem sound_collectParticles (he : KeepsSound context expand) (site : Site) {outer : Bounds}
    (ho : outer.most ≠ .zero → outer.IsOrdered) (nested : Bool) {lost : String → Prop} {s : Shape}
    (hs : s.IsSound lost) : ∀ particles : List Particle, AreOrdered particles →
      s.Loses context lost (ReachedBy context.linkage site.scope outer.most particles) →
      Yields (collectParticles context expand site outer nested s particles) (IsSound lost)
  | [], _, _ => by
      unfold collectParticles
      exact Yields.pure hs
  | p :: rest, hp, hd => by
      unfold collectParticles
      have first := sound_collectParticle he site ho nested hs p hp.1
        (hd.mono fun _ hr => reachedBy_cons.2 (.inl hr))
      refine (first.and (brings_collectParticle he.gathers site outer nested s p)).bind ?_
      rintro t ⟨ht, hb⟩
      exact sound_collectParticles he site ho nested ht rest hp.2
        ((hd.mono fun _ hr => reachedBy_cons.2 (.inr hr)).of_brings hb)

theorem sound_collectBranches (he : KeepsSound context expand) (site : Site) {outer : Bounds}
    (ho : outer.most ≠ .zero → outer.IsOrdered) : ∀ particles : List Particle,
      AreOrdered particles → Yields (collectBranches context expand site outer particles)
        fun branches => ∀ branch ∈ branches, branch.IsSound fun _ => False
  | [], _ => by
      unfold collectBranches
      exact Yields.pure (List.forall_mem_nil _)
  | p :: rest, hp => by
      unfold collectBranches
      have first := sound_collectParticle he site ho true (isSound_empty fun _ => False) p hp.1
        not_drops_empty
      exact first.bind fun _ hb => (sound_collectBranches he site ho rest hp.2).bind fun _ hrest =>
        Yields.pure (List.forall_mem_cons.2 ⟨hb, hrest⟩)

end

/-! ### Attributes -/

theorem sound_addAttribute (site : Site) (name : String) (item : Json) (required : Bool)
    (hs : s.IsSound lost) :
    Yields (addAttribute context site name (.ofAttribute item required) s) (IsSound lost) :=
  (does_addAttribute context site name _ s).yields.mono fun _ hr =>
    hr ▸ hs.addAttribute name item required

section

variable {expand : AttributeExpansion} {lost : String → Prop}
  (he : ∀ site located s, Shape.IsSound lost s → Yields (expand site located s) (IsSound lost))
include he

theorem sound_collectUse (site : Site) {s : Shape} (hs : s.IsSound lost) (use : AttributeUse) :
    Yields (collectUse context expand site s use) (IsSound lost) := by
  cases use with
  | declared declaration use =>
      exact Yields.ite (Yields.pure (hs.removeAttribute _)) (Yields.bind_any fun item =>
        sound_addAttribute site _ item _ hs)
  | reference reference use default fixed =>
      exact Yields.bind_any fun located => Yields.ite (Yields.pure (hs.removeAttribute _))
        (Yields.bind_any fun item => sound_addAttribute site _ item _ hs)
  | group reference =>
      refine Yields.bind_any fun located => (he _ located s hs).visiting.bind fun r hr =>
        Yields.pure ?_
      split
      · exact hr.congr rfl rfl
      · exact hr

theorem sound_collectUses (site : Site) {s : Shape} (hs : s.IsSound lost)
    (uses : List AttributeUse) :
    Yields (collectUses context expand site s uses) (IsSound lost) := by
  induction uses generalizing s with
  | nil => exact Yields.pure hs
  | cons use rest ih => exact (sound_collectUse he site hs use).bind fun _ ht => ih ht

end

theorem sound_expandAttributes (depth : ℕ) : ∀ site located s, Shape.IsSound lost s →
    Yields (expandAttributes context depth site located s) (IsSound lost) := by
  induction depth with
  | zero => exact fun _ _ _ _ => Yields.throw
  | succ depth ih => exact fun site located s hs => sound_collectUses ih site hs _

theorem sound_collectAttributes (site : Site) (uses : List AttributeUse) (hs : s.IsSound lost) :
    Yields (collectAttributes context site uses s) (IsSound lost) :=
  sound_collectUses (sound_expandAttributes _) site hs uses

/-! ### Types -/

/-- What holds of a result inside of any simple types holds inside of some. -/
theorem Yields.of_inside {α : Type} {c : Conversion α} {P : List QName → α → Prop}
    (h : ∀ simple, YieldsInside simple c (P simple)) : Yields c fun a => ∃ simple, P simple a :=
  fun s t a hrun => ⟨s.visited.simple, (h _ s t a rfl hrun).1⟩

/-- What elements of this name are dropped of the base of content. -/
def BaseDrops (context : Context) (there : String → Prop) (scope : File) (inheritance : Inheritance)
    (name : QName) (dropped : String) : Prop :=
  ∃ located base, context.linkage.IsComplex scope name located base ∧
    base.content.Drops context there located.file inheritance dropped

variable {expand : Expansions} (he : KeepsSound context expand)
include he

theorem sound_collectBase (site : Site) (inheritance : Inheritance) (name : QName)
    (hs : s.IsSound lost)
    (hd : ∀ dropped, BaseDrops context s.HasAttribute site.scope inheritance name dropped →
      lost dropped) :
    Yields (collectBase context expand site inheritance name s) (IsSound lost) := by
  unfold collectBase
  split
  · exact Yields.ite (Yields.pure hs) (Yields.bind_any fun _ => Yields.pure hs)
  · next hb =>
      refine (Yields.found fun located hl => hl).bind fun located hl => ?_
      split
      · next type htype =>
          have hc : context.linkage.IsComplex site.scope name located type :=
            ⟨Bool.eq_false_iff.2 hb, hl, htype⟩
          exact (he.base site inheritance located type (he.ordered.complex hc) hs
            fun dropped h => hd dropped ⟨located, type, hc, h⟩).visiting
      · exact Yields.bind_any fun _ => Yields.pure hs

theorem sound_collectText (site : Site) (name : QName) (derivation : Derivation)
    (facets : List Facet) (hs : s.IsSound lost)
    (hd : ∀ dropped, BaseDrops context s.HasAttribute site.scope .everything name dropped →
      lost dropped) :
    Yields (collectText context expand site name derivation facets s) (IsSound lost) := by
  unfold collectText
  refine (yields_complexBase?_text site name).bind fun found hf => ?_
  cases found with
  | none => exact Yields.bind_any fun text => Yields.pure (hs.congr rfl rfl)
  | some found =>
      obtain ⟨located, type⟩ := found
      have hc := hf.2 located type rfl
      refine (he.base site .everything located type (he.ordered.complex hc) hs
        fun dropped h => hd dropped ⟨located, type, hc, h⟩).visiting.bind fun r hr => ?_
      refine Yields.ite (Yields.pure hr) ?_
      refine (yields_narrowText_withText site located _ r).mono ?_
      rintro t ⟨text, rfl⟩
      exact hr.congr rfl rfl

/-- What content states itself comes behind its base, and meets the attributes that this leaves. -/
theorem sound_behind (site : Site) {inheritance : Inheritance} {content : Content} {p : Particle}
    (hp : content.particle? = some p) (hordered : content.IsOrdered) {simple : List QName}
    (ht : TakesBase context simple site.scope (content.inherited inheritance) content s t)
    (hsound : t.IsSound lost)
    (hd : ∀ name, content.Drops context s.HasAttribute site.scope inheritance name → lost name) :
    Yields (if inheritance = .everything then
        collectParticle context expand site .once false t p else pure t) (IsSound lost) := by
  split
  · next hi =>
      subst hi
      obtain ⟨used, hused, hr⟩ := ht
      have honce : Bounds.once.IsOrdered := Limit.le_refl _
      refine sound_collectParticle he site (fun _ => honce) false hsound p
        (Content.isOrdered_of_particle? hordered hp) ?_
      rintro name ⟨ha, place, hreaches, hn⟩
      exact hd name (.model hp hreaches hn hused (hr.hasAttribute hsound.distinct ha))
  · exact Yields.pure hsound

/-- The base of content, and what the content states itself behind it. -/
theorem sound_derived (site : Site) {inheritance inherited : Inheritance} {content : Content}
    {name : QName} (hbase : content.base? = some name)
    (hi : content.inherited inheritance = inherited) {p : Particle}
    (hp : content.particle? = some p) (hordered : content.IsOrdered) (hs : s.IsSound lost)
    (hd : ∀ name, content.Drops context s.HasAttribute site.scope inheritance name → lost name) :
    Yields (do
      let shape ← collectBase context expand site inherited name s
      if inheritance = .everything then collectParticle context expand site .once false shape p
      else pure shape) (IsSound lost) := by
  subst hi
  have base := sound_collectBase he site (content.inherited inheritance) name hs
    fun dropped ⟨located, type, hc, h⟩ => hd dropped (.base ⟨name, hbase, hc⟩ h)
  have takes := Yields.of_inside fun simple =>
    takesBase_collectBase (he.takes simple) site (content.inherited inheritance) hbase s
  refine (base.and takes).bind ?_
  rintro t ⟨ht, simple, htakes⟩
  exact sound_behind he site hp hordered htakes ht hd

theorem sound_collectContent (site : Site) (inheritance : Inheritance) (hs : s.IsSound lost)
    (content : Content) (hordered : content.IsOrdered)
    (hd : ∀ name, content.Drops context s.HasAttribute site.scope inheritance name → lost name) :
    Yields (collectContent context expand site inheritance s content) (IsSound lost) := by
  cases content with
  | empty =>
      unfold collectContent
      exact Yields.pure hs
  | particle p =>
      have htakes : TakesBase context [] site.scope ((Content.particle p).inherited inheritance)
          (.particle p) s s := takesBase_self (Linkage.not_isBase rfl) s
      unfold collectContent
      exact sound_behind he site rfl hordered htakes hs hd
  | extension base particle =>
      cases particle with
      | none =>
          unfold collectContent
          exact sound_collectBase he site inheritance base hs
            fun dropped ⟨located, type, hc, h⟩ => hd dropped (.base ⟨base, rfl, hc⟩ h)
      | some p =>
          have hbase : (Content.extension base (some p)).base? = some base := rfl
          have hp : (Content.extension base (some p)).particle? = some p := rfl
          unfold collectContent
          exact sound_derived he site hbase rfl hp hordered hs hd
  | restriction base particle =>
      cases particle with
      | none =>
          unfold collectContent
          exact sound_collectBase he site .attributes base hs
            fun dropped ⟨located, type, hc, h⟩ => hd dropped (.base ⟨base, rfl, hc⟩ h)
      | some p =>
          have hbase : (Content.restriction base (some p)).base? = some base := rfl
          have hp : (Content.restriction base (some p)).particle? = some p := rfl
          unfold collectContent
          exact sound_derived he site hbase rfl hp hordered hs hd
  | simple base derivation facets =>
      unfold collectContent
      exact sound_collectText he site base derivation facets hs
        fun dropped ⟨located, type, hc, h⟩ => hd dropped (.base ⟨base, rfl, hc⟩ h)

theorem sound_collectComplex (site : Site) (inheritance : Inheritance) (hs : s.IsSound lost)
    (type : ComplexType) (hordered : type.IsOrdered)
    (hd : ∀ name, type.content.Drops context s.HasAttribute site.scope inheritance name →
      lost name) :
    Yields (collectComplex context expand site inheritance s type) (IsSound lost) := by
  obtain ⟨content, attributes, anyAttribute, mixed⟩ := type
  have collected : Yields (do
      let shape ← collectContent context expand site inheritance s content
      let shape ← collectAttributes context site attributes shape
      return if anyAttribute then { shape with isOpen := true } else shape) (IsSound lost) := by
    refine (sound_collectContent he site inheritance hs content hordered hd).bind fun t ht =>
      (sound_collectAttributes site attributes ht).bind fun r hr => Yields.pure ?_
    split
    · exact hr.congr rfl rfl
    · exact hr
  unfold collectComplex
  exact Yields.ite (Yields.bind_any fun _ => collected) collected

omit he in
/-- However deep bases and groups are expanded, they keep shapes sound. -/
theorem keepsSound_expansions (hl : context.linkage.IsOrdered) (depth : ℕ) :
    KeepsSound context (expansions context depth) := by
  induction depth with
  | zero =>
      exact ⟨hl, fun simple => takesBases_expansions context simple 0,
        fun _ _ _ _ _ _ _ _ _ => Yields.throw, fun _ _ _ _ _ _ _ _ _ _ => Yields.throw⟩
  | succ depth ih =>
      exact ⟨hl, fun simple => takesBases_expansions context simple (depth + 1),
        fun site inheritance located type _ _ ht hs hd =>
          sound_collectComplex ih { site with scope := located.file } inheritance hs type ht hd,
        fun site located bounds nested _ _ hb hg hs hd =>
          sound_collectGroup ih { site with scope := located.file } hb nested hs _ hg hd⟩

end

/-! ### Whatever a shape takes in -/

namespace Intake

/-- The bounds in what is taken in, and those that it is inside of, are in order. -/
def IsOrdered : Intake → Prop
  | complex _ type => type.IsOrdered
  | content _ stated => stated.IsOrdered
  | base _ _ => True
  | text _ _ _ => True
  | particle outer _ p => outer.IsOrdered ∧ p.IsOrdered
  | particles outer _ ps => outer.IsOrdered ∧ AreOrdered ps
  | term bounds _ t => bounds.IsOrdered ∧ t.IsOrdered
  | group bounds _ g => bounds.IsOrdered ∧ g.IsOrdered
  | choice bounds ps => bounds.IsOrdered ∧ AreOrdered ps
  | groupRef bounds _ _ => bounds.IsOrdered
  | elementRef bounds _ => bounds.IsOrdered
  | attributes _ => True

/-- The names of the elements that are dropped when something that a file states is taken into a
shape. -/
def Drops (context : Context) (scope : File) (s : Shape) : Intake → String → Prop
  | complex inheritance type => type.content.Drops context s.HasAttribute scope inheritance
  | content inheritance stated => stated.Drops context s.HasAttribute scope inheritance
  | base inheritance name => BaseDrops context s.HasAttribute scope inheritance name
  | text name _ _ => BaseDrops context s.HasAttribute scope .everything name
  | particle outer _ p => s.Drops context (p.Reaches context.linkage scope outer.most)
  | particles outer _ ps => s.Drops context (ReachedBy context.linkage scope outer.most ps)
  | term bounds _ t => s.Drops context (t.Reaches context.linkage scope bounds.most)
  | group bounds _ g => s.Drops context (ReachedBy context.linkage scope bounds.most g.particles)
  | choice bounds ps => s.Drops context (ReachedBy context.linkage scope bounds.most ps)
  | groupRef bounds _ reference =>
    s.Drops context ((Term.groupRef reference).Reaches context.linkage scope bounds.most)
  | elementRef bounds reference =>
    s.Drops context ((Term.elementRef reference).Reaches context.linkage scope bounds.most)
  | attributes _ => fun _ => False

end Intake

/-- Whatever is taken into a sound shape, the shape stays sound, and loses what is dropped. -/
theorem sound_collect (hl : context.linkage.IsOrdered) (depth : ℕ) (site : Site) {i : Intake}
    (hi : i.IsOrdered) (hs : s.IsSound lost) :
    Yields (i.collect context (expansions context depth) site s)
      (IsSound fun name => lost name ∨ i.Drops context site.scope s name) := by
  have he := keepsSound_expansions hl depth
  have hs : s.IsSound fun name => lost name ∨ i.Drops context site.scope s name :=
    hs.mono fun _ => .inl
  have hd : ∀ name, i.Drops context site.scope s name →
      lost name ∨ i.Drops context site.scope s name := fun _ => .inr
  cases i with
  | complex inheritance type => exact sound_collectComplex he site inheritance hs type hi hd
  | content inheritance stated => exact sound_collectContent he site inheritance hs stated hi hd
  | base inheritance name => exact sound_collectBase he site inheritance name hs hd
  | text name derivation facets => exact sound_collectText he site name derivation facets hs hd
  | particle outer nested p =>
      exact sound_collectParticle he site (fun _ => hi.1) nested hs p hi.2 hd
  | particles outer nested ps =>
      exact sound_collectParticles he site (fun _ => hi.1) nested hs ps hi.2 hd
  | term bounds nested t => exact sound_collectTerm he site hi.1 nested hs t hi.2 hd
  | group bounds nested g => exact sound_collectGroup he site (fun _ => hi.1) nested hs g hi.2 hd
  | choice bounds ps =>
      exact sound_choice he site
        (sound_collectBranches he site Bounds.isOrdered_of_one ps hi.2) hs hd
  | groupRef bounds nested reference =>
      exact sound_collectGroupRef he site reference hi nested hs hd
  | elementRef bounds reference => exact sound_collectElementRef site reference hi hs
  | attributes uses => exact sound_collectAttributes site uses hs

end Conversion

end Crosswalk
