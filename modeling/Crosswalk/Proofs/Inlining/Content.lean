import Crosswalk.Proofs.Inlining.Attributes
import Crosswalk.Proofs.Inlining.Framing

/-!
# Content with groups referred to or inlined

The same content is collected in two documents: in one of them reused model groups are referred to,
in the other one no group is. Everything else is done alike, and so the shapes mirror each other.
Where a group is referred to, three conversions of it are compared: the one that finds out which
members it has, the one in its own document that its definition comes from, and the one that takes
it in.
-/

namespace Crosswalk

open Json Check

/-- The linkage in which no model group counts as reused. -/
def Linkage.inlined (l : Linkage) : Linkage := { l with groupUses := [] }

theorem Linkage.isReused_inlined (l : Linkage) (name : QName) :
    l.inlined.isReused name = false := rfl

namespace Conversion

variable {Home : Type} {lead : Home → String → Option (Home × Json)} {follow : Follow Home}
  {home home' : Home} {l : Linkage} {o : Options} {f g : File} {p : Prop} {s s' : Shape}

section

variable (lead follow home home' o)

/-- The shapes mirror each other, and inside of groups and choices no group is referred to. -/
structure MirrorsIn (nested : Bool) (s s' : Shape) : Prop where
  mirrors : s.Mirrors lead follow o.textProperty home home' s'
  plain : nested = true → s.IsPlain

variable (p)

/-- Content is added to shapes in two documents. -/
def MirroredIn (nested : Bool) (c d : Conversion Shape) : Prop :=
  Agree Outside (Identical p) c d (MirrorsIn lead follow home home' o nested)

/-- Two ways to expand bases and groups come to the same. -/
structure ExpandsToSame (expand expand' : Expansions) : Prop where
  base : ∀ (scope : File) (location location' : String) (inheritance : Inheritance)
    (located : Located NamedType) (type : ComplexType) {s s' : Shape},
    s.Mirrors lead follow o.textProperty home home' s' →
      Mirrored lead follow home home' o p
        (expand.base ⟨scope, location⟩ inheritance located type s)
        (expand'.base ⟨scope, location'⟩ inheritance located type s')
  group : ∀ (scope : File) (location location' : String) (located : Located NamedGroup)
    (bounds : Bounds) (nested : Bool) {s s' : Shape},
    MirrorsIn lead follow home home' o nested s s' →
      MirroredIn lead follow home home' o p nested
        (expand.group ⟨scope, location⟩ located bounds nested s)
        (expand'.group ⟨scope, location'⟩ located bounds nested s')

end

section

variable (lead follow home home' l o f)

/-- The definition of a group that a document refers to mirrors what the group is expanded to. -/
def DefinesSame (expand : Expansions) : Prop :=
  ∀ {scope : File} {name : QName} {located : Located NamedGroup},
    l.group? scope name = some located → l.isReused located.declaration.name = true →
    ∀ (location : String) (t t' : ConversionState) (own : Shape), t.visited.simple = [] →
      run (expand.group ⟨scope, location⟩ located .once true {}) t = (.ok own, t') →
      ∃ d : Definition Home,
        Shape.Describes lead o.textProperty home (linkTo ⟨l, o, f⟩ located.file "definitions"
          (groupKey located.declaration.name.name)) d ∧
        d.shape.Mirrors lead follow o.textProperty d.home home' own

end

/-- What is known of the documents. -/
structure Reads (lead : Home → String → Option (Home × Json)) (follow : Follow Home)
    (home home' : Home) (l : Linkage) (o : Options) (f g : File) (expand' : Expansions) :
    Prop where
  judges : Judges lead follow home
  alike : ReadsAlike l o follow home home' f g
  unqualified : o.qualifiedPropertyNames = false
  frames : ∀ frame, Frames frame expand'
  defines : DefinesSame lead follow home home' l o f expand'

namespace MirrorsIn

theorem of_mirrors (h : s.Mirrors lead follow o.textProperty home home' s') :
    MirrorsIn lead follow home home' o false s s' :=
  ⟨h, fun hn => absurd hn Bool.false_ne_true⟩

theorem empty (nested : Bool) : MirrorsIn lead follow home home' o nested {} {} :=
  ⟨Shape.mirrors_empty, fun _ => Shape.isPlain_empty⟩

variable {nested : Bool} (h : MirrorsIn lead follow home home' o nested s s')
include h

theorem addElement (hb : IsBlind follow) (name : String) {slot slot' : Slot}
    (hslot : slot.Agrees lead follow home home' slot') (he : slot.isAttribute = false) :
    MirrorsIn lead follow home home' o nested (s.addElement Slot.andThen name slot).1
      (s'.addElement Slot.andThen name slot').1 :=
  ⟨h.mirrors.addElement hb Slot.isJoin_andThen name hslot,
    fun hn => (h.plain hn).addElement Slot.isJoin_andThen name he⟩

theorem opened : MirrorsIn lead follow home home' o nested { s with isOpen := true }
    { s' with isOpen := true } :=
  ⟨h.mirrors.opened fun _ => rfl, fun hn => (h.plain hn).opened true⟩

theorem withChoice (hb : IsBlind follow) {branches branches' : List Shape}
    (hbranches : List.Forall₂ (MirrorsIn lead follow home home' o true) branches branches')
    (obliged : Bool) : MirrorsIn lead follow home home' o nested
      (s.withChoice branches obliged) (s'.withChoice branches' obliged) := by
  have hplain := hbranches.imp fun _ _ hb => And.intro hb.mirrors (hb.plain rfl)
  refine ⟨h.mirrors.withChoice hb hplain obliged, fun hn => (h.plain hn).withChoice ?_ obliged⟩
  intro branch hbranch
  obtain ⟨branch', -, hb⟩ := exists_entry hbranches hbranch
  exact hb.plain rfl

end MirrorsIn

/-! ### Elements -/

theorem mirrored_element (hb : IsBlind follow) {nested : Bool} {context context' : Context}
    (site site' : Site) (name : String) {item item' : Json}
    (hi : ItemAgrees lead follow home home' item item') (bounds : Bounds)
    (h : MirrorsIn lead follow home home' o nested s s') :
    MirroredIn lead follow home home' o p nested
      (addElement context site name (.ofElement item bounds) s)
      (addElement context' site' name (.ofElement item' bounds) s') :=
  .of_does (does_addElement _ _ _ _ _) (does_addElement _ _ _ _ _)
    (h.addElement hb name (.ofElement hi bounds) rfl)

section

variable {expand expand' : Expansions}
  (reads : Reads lead follow home home' l o f g expand')
  (he : ExpandsToSame lead follow home home' o p expand expand')
include reads

theorem mirrored_collectElementRef {nested : Bool} (scope : File) (location location' : String)
    (reference : QName) (bounds : Bounds) (h : MirrorsIn lead follow home home' o nested s s') :
    MirroredIn lead follow home home' o p nested
      (collectElementRef ⟨l, o, f⟩ ⟨scope, location⟩ reference bounds s)
      (collectElementRef ⟨l.inlined, o, g⟩ ⟨scope, location'⟩ reference bounds s') := by
  unfold collectElementRef
  refine (Agree.found _).bind fun located located' hl => ?_
  obtain ⟨rfl, hl⟩ := hl
  dsimp only
  rw [propertyName_of_plain reads.unqualified, propertyName_of_plain reads.unqualified]
  exact mirrored_element reads.judges.blind _ _ _
    ⟨fun _ => reads.alike.element hl, Json.noConfusion⟩ bounds h

theorem agree_elementKeywords (scope : File) (location location' : String) (type : ElementType)
    (default fixed documentation : Option String) : Agree Outside (Identical p)
      (elementKeywords ⟨l, o, f⟩ ⟨scope, location⟩ type default fixed documentation)
      (elementKeywords ⟨l.inlined, o, g⟩ ⟨scope, location'⟩ type default fixed documentation)
      (fun extras extras' => extras = extras' ∧ AreBeside extras) := by
  unfold elementKeywords
  split
  · exact Agree.pure ⟨rfl, areBeside_descriptionOf documentation⟩
  · refine (agree_literalSpace? l.groupUses [] reads.alike scope type).outside.bind
      fun space space' hs => ?_
    subst hs
    cases space with
    | some space => exact Agree.pure ⟨rfl, areBeside_append space⟩
    | none =>
        exact .after (does_diagnose _ _ _ _) (does_diagnose _ _ _ _)
          (Agree.pure ⟨rfl, areBeside_descriptionOf documentation⟩)

/-! ### References to groups -/

/-- One type refers to a group that the other one takes in. -/
theorem mirrored_reference (he : ExpandsToSame lead follow home home' o p expand expand')
    {scope : File} (location location' : String) {name : QName} {located : Located NamedGroup}
    (hl : l.group? scope name = some located)
    (hr : l.isReused located.declaration.name = true)
    (h : MirrorsIn lead follow home home' o false s s') :
    MirroredIn lead follow home home' o p false
      (do
        let members ← expand.group ⟨scope, location⟩ located .once true {}
        return s.addReference members (linkTo ⟨l, o, f⟩ located.file "definitions"
          (groupKey located.declaration.name.name)))
      (expand'.group ⟨scope, location'⟩ located .once false s') := by
  intro t u r t₁ hv hc hd
  obtain ⟨members, t₂, hmembers, hpure⟩ := run_bind_ok hc
  rw [run_pure, Prod.mk.injEq, Except.ok.injEq] at hpure
  obtain ⟨rfl, rfl⟩ := hpure
  -- the group on its own, in the document that takes it in
  have framed : Shape.Framed s' {} s' := fun _ => by simp [Shape.append]
  have tied := reads.frames s' ⟨scope, location'⟩ located .once true false framed
  have known : Identical p t.visited u.visited ∨
      ∃ own u', run (expand'.group ⟨scope, location'⟩ located .once true {}) u = (.ok own, u') :=
    hd.imp_right fun h => by
      obtain ⟨a, u', ha⟩ := h
      obtain ⟨own, u'', hown, -⟩ := tied.back u u a u' rfl ha (.inl trivial)
      exact ⟨own, u'', hown⟩
  obtain ⟨own, u₁, hown, hst, -, hm⟩ := he.group scope location location' located .once true
    (.empty true) t u members _ hv hmembers known
  obtain ⟨a, u₂, ha, -, hsu, hframed⟩ := tied.forth u u own u₁ rfl hown (.inl trivial)
  obtain ⟨d, hdescribes, hdefinition⟩ := reads.defines hl hr location' u u₁ own hv.2 hown
  exact ⟨a, u₂, ha, hst, hsu, .of_mirrors
    (h.mirrors.addReference hm.mirrors (hm.plain rfl) hdescribes hdefinition hframed)⟩

theorem mirrored_collectGroupRef (he : ExpandsToSame lead follow home home' o p expand expand')
    {nested : Bool} (scope : File) (location location' : String) (reference : QName)
    (bounds : Bounds) (h : MirrorsIn lead follow home home' o nested s s') :
    MirroredIn lead follow home home' o p nested
      (collectGroupRef ⟨l, o, f⟩ expand ⟨scope, location⟩ reference bounds nested s)
      (collectGroupRef ⟨l.inlined, o, g⟩ expand' ⟨scope, location'⟩ reference bounds nested
        s') := by
  unfold collectGroupRef
  refine (Agree.found _).bind fun located located' hl => ?_
  obtain ⟨rfl, hl⟩ := hl
  refine Agree.visiting (enters_eq p Expandable.noConfusion) ?_
  simp only [Linkage.isReused_inlined, Bool.and_false, Bool.false_eq_true, if_false]
  split
  · next hreferred =>
      rw [Bool.and_eq_true, Bool.and_eq_true, decide_eq_true_eq] at hreferred
      obtain ⟨⟨hn, rfl⟩, hr⟩ := hreferred
      obtain rfl : nested = false := by simpa using hn
      exact mirrored_reference reads he location location' hl hr h
  · exact he.group scope location location' located bounds nested h

/-! ### Bases -/

omit reads in
theorem mirrored_collectBase (he : ExpandsToSame lead follow home home' o p expand expand')
    (scope : File) (location location' : String) (inheritance : Inheritance) (base : QName)
    (h : s.Mirrors lead follow o.textProperty home home' s') :
    Mirrored lead follow home home' o p
      (collectBase ⟨l, o, f⟩ expand ⟨scope, location⟩ inheritance base s)
      (collectBase ⟨l.inlined, o, g⟩ expand' ⟨scope, location'⟩ inheritance base s') := by
  unfold collectBase
  split
  · split
    · exact Agree.pure h
    · exact .after (does_diagnose _ _ _ _) (does_diagnose _ _ _ _) (Agree.pure h)
  · refine (Agree.found _).bind fun located located' hl => ?_
    obtain ⟨rfl, -⟩ := hl
    split
    · exact (he.base scope location location' inheritance located _ h).visiting
        (enters_eq p Expandable.noConfusion)
    · exact .after (does_diagnose _ _ _ _) (does_diagnose _ _ _ _) (Agree.pure h)

omit reads in
theorem textRoot?_inlined (steps : Nat) (scope : File) (name : QName) :
    textRoot? ⟨l, o, f⟩ steps scope name = textRoot? ⟨l.inlined, o, g⟩ steps scope name := by
  induction steps generalizing scope name with
  | zero => rfl
  | succ steps ih =>
      have htype : l.inlined.type? scope name = l.type? scope name := rfl
      simp only [textRoot?, htype, ih]

theorem mirrored_narrowText (scope : File) (location location' : String)
    (located : Located NamedType) (facets : List Facet)
    (h : s.Mirrors lead follow o.textProperty home home' s') :
    Mirrored lead follow home home' o p
      (narrowText ⟨l, o, f⟩ ⟨scope, location⟩ located facets s)
      (narrowText ⟨l.inlined, o, g⟩ ⟨scope, location'⟩ located facets s') := by
  have hroot : textRoot? ⟨l, o, f⟩ (chainLength ⟨l, o, f⟩) located.file
      located.declaration.name = textRoot? ⟨l.inlined, o, g⟩ (chainLength ⟨l.inlined, o, g⟩)
        located.file located.declaration.name := textRoot?_inlined _ _ _
  unfold narrowText
  rw [hroot]
  split
  · next root _ =>
      refine (agree_simpleSchema l.groupUses [] reads.alike _ _ _ false _).outside.bind
        fun narrowed narrowed' hn => Agree.pure (h.withText ?_ fun ht => ?_)
      · split
        · exact fun heq => Json.noConfusion (Option.some.inj heq)
        · exact fun heq => hn.described (Option.some.inj heq)
      · generalize s.text = text, s'.text = text' at ht
        cases ht with
        | none => exact .some ⟨hn.acceptsSame, hn.described⟩
        | some hsame =>
            refine .some ⟨fun value => ?_, Json.noConfusion⟩
            rw [reads.judges.blind.accepts_allOf_iff, reads.judges.blind.accepts_allOf_iff]
            simp only [List.forall_mem_cons, hsame.same value, hn.acceptsSame value,
              List.not_mem_nil, false_implies, implies_true]
  · exact .after (does_diagnose _ _ _ _) (does_diagnose _ _ _ _) (Agree.pure h)

theorem agree_textSchema (scope : File) (location location' : String) (base : QName)
    (facets : List Facet) : Agree Outside (Identical p)
      (textSchema ⟨l, o, f⟩ ⟨scope, location⟩ base facets)
      (textSchema ⟨l.inlined, o, g⟩ ⟨scope, location'⟩ base facets)
      (SameType follow home home') := by
  unfold textSchema
  split
  · exact (agree_typeReference l.groupUses [] reads.alike scope base _ _).outside
  · exact (agree_simpleSchema l.groupUses [] reads.alike scope _ _ true _).outside

omit reads in
theorem agree_complexBase? (scope : File) (location location' : String) (base : QName) :
    Agree Outside (Identical p) (complexBase? ⟨l, o, f⟩ ⟨scope, location⟩ base)
      (complexBase? ⟨l.inlined, o, g⟩ ⟨scope, location'⟩ base) Eq := by
  unfold complexBase?
  split
  · exact Agree.pure rfl
  · refine (Agree.found _).bind fun located located' hl => ?_
    obtain ⟨rfl, -⟩ := hl
    split <;> exact Agree.pure rfl

theorem mirrored_collectText (he : ExpandsToSame lead follow home home' o p expand expand')
    (scope : File) (location location' : String) (base : QName) (derivation : Derivation)
    (facets : List Facet) (h : s.Mirrors lead follow o.textProperty home home' s') :
    Mirrored lead follow home home' o p
      (collectText ⟨l, o, f⟩ expand ⟨scope, location⟩ base derivation facets s)
      (collectText ⟨l.inlined, o, g⟩ expand' ⟨scope, location'⟩ base derivation facets s') := by
  unfold collectText
  refine (agree_complexBase? scope location location' base).bind fun found found' hf => ?_
  subst hf
  split
  · refine (agree_textSchema reads scope location location' base _).bind fun text text' ht =>
      Agree.pure (h.withText (fun heq => ht.described (Option.some.inj heq)) fun _ => ?_)
    exact .some ⟨ht.acceptsSame, ht.described⟩
  · next located type =>
      refine ((he.base scope location location' .everything located type h).visiting
        (enters_eq p Expandable.noConfusion)).bind fun t t' ht => ?_
      exact Agree.ite (Agree.pure ht)
        (mirrored_narrowText reads scope location location' located _ ht)

omit reads

/-! ### Content models -/

mutual

theorem mirrored_collectComplex (reads : Reads lead follow home home' l o f g expand')
    (he : ExpandsToSame lead follow home home' o p expand expand') (scope : File)
    (location location' : String) (inheritance : Inheritance) {s s' : Shape}
    (h : s.Mirrors lead follow o.textProperty home home' s') : ∀ type : ComplexType,
      Mirrored lead follow home home' o p
        (collectComplex ⟨l, o, f⟩ expand ⟨scope, location⟩ inheritance s type)
        (collectComplex ⟨l.inlined, o, g⟩ expand' ⟨scope, location'⟩ inheritance s' type)
  | ⟨content, attributes, anyAttribute, mixed⟩ => by
      have collected : Mirrored lead follow home home' o p
          (do
            let shape ← collectContent ⟨l, o, f⟩ expand ⟨scope, location⟩ inheritance s content
            let shape ← collectAttributes ⟨l, o, f⟩ ⟨scope, location⟩ attributes shape
            return if anyAttribute then { shape with isOpen := true } else shape)
          (do
            let shape ← collectContent ⟨l.inlined, o, g⟩ expand' ⟨scope, location'⟩ inheritance
              s' content
            let shape ← collectAttributes ⟨l.inlined, o, g⟩ ⟨scope, location'⟩ attributes shape
            return if anyAttribute then { shape with isOpen := true } else shape) := by
        refine (mirrored_collectContent reads he scope location location' inheritance h
          content).bind fun t t' ht => (mirrored_collectAttributes reads.alike reads.unqualified
            l.groupUses [] scope location location' attributes ht).bind
              fun r r' hr => Agree.pure ?_
        split
        · exact hr.opened fun _ => rfl
        · exact hr
      unfold collectComplex
      exact Agree.ite (.after (does_diagnose _ _ _ _) (does_diagnose _ _ _ _) collected) collected

theorem mirrored_collectContent (reads : Reads lead follow home home' l o f g expand')
    (he : ExpandsToSame lead follow home home' o p expand expand') (scope : File)
    (location location' : String) (inheritance : Inheritance) {s s' : Shape}
    (h : s.Mirrors lead follow o.textProperty home home' s') : ∀ content : Content,
      Mirrored lead follow home home' o p
        (collectContent ⟨l, o, f⟩ expand ⟨scope, location⟩ inheritance s content)
        (collectContent ⟨l.inlined, o, g⟩ expand' ⟨scope, location'⟩ inheritance s' content)
  | .empty => by
      unfold collectContent
      exact Agree.pure h
  | .particle q => by
      unfold collectContent
      split
      · exact (mirrored_collectParticle reads he scope location location' .once (.of_mirrors h)
          q).mono fun _ _ => MirrorsIn.mirrors
      · exact Agree.pure h
  | .extension base none => by
      unfold collectContent
      exact mirrored_collectBase he scope location location' inheritance base h
  | .extension base (some q) => by
      unfold collectContent
      refine (mirrored_collectBase he scope location location' inheritance base h).bind
        fun t t' ht => ?_
      split
      · exact (mirrored_collectParticle reads he scope location location' .once (.of_mirrors ht)
          q).mono fun _ _ => MirrorsIn.mirrors
      · exact Agree.pure ht
  | .restriction base none => by
      unfold collectContent
      exact mirrored_collectBase he scope location location' .attributes base h
  | .restriction base (some q) => by
      unfold collectContent
      refine (mirrored_collectBase he scope location location' .attributes base h).bind
        fun t t' ht => ?_
      split
      · exact (mirrored_collectParticle reads he scope location location' .once (.of_mirrors ht)
          q).mono fun _ _ => MirrorsIn.mirrors
      · exact Agree.pure ht
  | .simple base derivation facets => by
      unfold collectContent
      exact mirrored_collectText reads he scope location location' base derivation facets h

theorem mirrored_collectParticle (reads : Reads lead follow home home' l o f g expand')
    (he : ExpandsToSame lead follow home home' o p expand expand') (scope : File)
    (location location' : String) (outer : Bounds) {nested : Bool} {s s' : Shape}
    (h : MirrorsIn lead follow home home' o nested s s') : ∀ q : Particle,
      MirroredIn lead follow home home' o p nested
        (collectParticle ⟨l, o, f⟩ expand ⟨scope, location⟩ outer nested s q)
        (collectParticle ⟨l.inlined, o, g⟩ expand' ⟨scope, location'⟩ outer nested s' q)
  | ⟨least, most, term⟩ => by
      unfold collectParticle
      dsimp only
      split
      · exact Agree.pure h
      · exact mirrored_collectTerm reads he scope location location' _ h term

theorem mirrored_collectTerm (reads : Reads lead follow home home' l o f g expand')
    (he : ExpandsToSame lead follow home home' o p expand expand') (scope : File)
    (location location' : String) (bounds : Bounds) {nested : Bool} {s s' : Shape}
    (h : MirrorsIn lead follow home home' o nested s s') : ∀ term : Term,
      MirroredIn lead follow home home' o p nested
        (collectTerm ⟨l, o, f⟩ expand ⟨scope, location⟩ bounds nested s term)
        (collectTerm ⟨l.inlined, o, g⟩ expand' ⟨scope, location'⟩ bounds nested s' term)
  | .element declaration => by
      unfold collectTerm
      refine (mirrored_elementSchema reads he scope _ _ declaration).bind fun item item' hi => ?_
      dsimp only
      rw [propertyName_of_plain reads.unqualified, propertyName_of_plain reads.unqualified]
      exact mirrored_element reads.judges.blind _ _ _ hi bounds h
  | .elementRef reference => by
      unfold collectTerm
      exact mirrored_collectElementRef reads scope location location' reference bounds h
  | .group group => by
      unfold collectTerm
      exact mirrored_collectGroup reads he scope location location' bounds h group
  | .groupRef reference => by
      unfold collectTerm
      exact mirrored_collectGroupRef reads he scope location location' reference bounds h
  | .any => by
      unfold collectTerm
      exact Agree.pure h.opened

theorem mirrored_collectGroup (reads : Reads lead follow home home' l o f g expand')
    (he : ExpandsToSame lead follow home home' o p expand expand') (scope : File)
    (location location' : String) (bounds : Bounds) {nested : Bool} {s s' : Shape}
    (h : MirrorsIn lead follow home home' o nested s s') : ∀ group : ModelGroup,
      MirroredIn lead follow home home' o p nested
        (collectGroup ⟨l, o, f⟩ expand ⟨scope, location⟩ bounds nested s group)
        (collectGroup ⟨l.inlined, o, g⟩ expand' ⟨scope, location'⟩ bounds nested s' group)
  | ⟨.choice, particles⟩ => by
      unfold collectGroup
      split
      · exact .after (does_diagnose _ _ _ _) (does_diagnose _ _ _ _)
          (mirrored_collectParticles reads he scope location location' bounds.orNone h particles)
      · exact (mirrored_collectBranches reads he scope location location' _ particles).bind
          fun branches branches' hb =>
            .of_does (does_addChoice _ _ _ _ _) (does_addChoice _ _ _ _ _)
              (h.withChoice reads.judges.blind hb _)
  | ⟨.sequence, particles⟩ => by
      unfold collectGroup
      exact mirrored_collectParticles reads he scope location location' bounds h particles
  | ⟨.all, particles⟩ => by
      unfold collectGroup
      exact mirrored_collectParticles reads he scope location location' bounds h particles

theorem mirrored_collectParticles (reads : Reads lead follow home home' l o f g expand')
    (he : ExpandsToSame lead follow home home' o p expand expand') (scope : File)
    (location location' : String) (outer : Bounds) {nested : Bool} {s s' : Shape}
    (h : MirrorsIn lead follow home home' o nested s s') : ∀ particles : List Particle,
      MirroredIn lead follow home home' o p nested
        (collectParticles ⟨l, o, f⟩ expand ⟨scope, location⟩ outer nested s particles)
        (collectParticles ⟨l.inlined, o, g⟩ expand' ⟨scope, location'⟩ outer nested s' particles)
  | [] => by
      unfold collectParticles
      exact Agree.pure h
  | q :: rest => by
      unfold collectParticles
      exact (mirrored_collectParticle reads he scope location location' outer h q).bind
        fun _ _ ht => mirrored_collectParticles reads he scope location location' outer ht rest

theorem mirrored_collectBranches (reads : Reads lead follow home home' l o f g expand')
    (he : ExpandsToSame lead follow home home' o p expand expand') (scope : File)
    (location location' : String) (outer : Bounds) : ∀ particles : List Particle,
      Agree Outside (Identical p)
        (collectBranches ⟨l, o, f⟩ expand ⟨scope, location⟩ outer particles)
        (collectBranches ⟨l.inlined, o, g⟩ expand' ⟨scope, location'⟩ outer particles)
        (List.Forall₂ (MirrorsIn lead follow home home' o true))
  | [] => by
      unfold collectBranches
      exact Agree.pure .nil
  | q :: rest => by
      unfold collectBranches
      exact (mirrored_collectParticle reads he scope location location' outer (.empty true) q).bind
        fun _ _ hb => (mirrored_collectBranches reads he scope location location' outer rest).bind
          fun _ _ hrest => Agree.pure (.cons hb hrest)

theorem mirrored_elementSchema (reads : Reads lead follow home home' l o f g expand')
    (he : ExpandsToSame lead follow home home' o p expand expand') (scope : File)
    (location location' : String) : ∀ element : Element,
      Agree Outside (Identical p) (elementSchema ⟨l, o, f⟩ expand ⟨scope, location⟩ element)
        (elementSchema ⟨l.inlined, o, g⟩ expand' ⟨scope, location'⟩ element)
        (ItemAgrees lead follow home home')
  | ⟨name, _, type, nillable, default, fixed, documentation⟩ => by
      unfold elementSchema
      refine (mirrored_elementTypeSchema reads he scope location location' name.name type).bind
        fun base base' hbase => (agree_elementKeywords reads scope location location' type default
          fixed documentation).bind fun extras extras' hextras => Agree.pure ?_
      obtain ⟨rfl, hbeside⟩ := hextras
      have item := hbase.withKeywords reads.judges.blind hbeside
      split
      · exact item.orNull reads.judges.blind
      · exact item

theorem mirrored_elementTypeSchema (reads : Reads lead follow home home' l o f g expand')
    (he : ExpandsToSame lead follow home home' o p expand expand') (scope : File)
    (location location' : String) (elementName : String) : ∀ type : ElementType,
      Agree Outside (Identical p)
        (elementTypeSchema ⟨l, o, f⟩ expand ⟨scope, location⟩ elementName type)
        (elementTypeSchema ⟨l.inlined, o, g⟩ expand' ⟨scope, location'⟩ elementName type)
        (TypeAgrees lead follow home home')
  | .named name => by
      unfold elementTypeSchema
      exact (agree_typeReference l.groupUses [] reads.alike scope name _ _).outside.mono
        fun _ _ => .plain
  | .simple type => by
      unfold elementTypeSchema
      exact (agree_simpleSchema l.groupUses [] reads.alike scope _ _ true type).outside.mono
        fun _ _ => .plain
  | .complex type => by
      unfold elementTypeSchema
      exact (mirrored_collectComplex reads he scope location location' .everything
        Shape.mirrors_empty type).bind fun _ _ ht =>
          Agree.pure (ht.typeAgrees reads.judges o.isClosed)
  | .any => by
      unfold elementTypeSchema
      exact Agree.pure (.plain (.equal fun _ => MembersAre.nil))

end

end

end Conversion

end Crosswalk
