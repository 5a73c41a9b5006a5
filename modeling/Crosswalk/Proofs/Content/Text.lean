import Crosswalk.Proofs.Inlining.Attributes

/-!
# Where character data comes from

Elements, model groups and attributes do not touch the character data of a shape. It comes with
simple content: with that of the type itself, or with that of a type it is derived from. If the way
from base to base ends at a simple type, there is character data in the end; and if there is any,
some type on the way has simple content.
-/

namespace Crosswalk

/-- The name stands for a simple type. -/
def Linkage.IsSimpleName (l : Linkage) (scope : File) (name : QName) : Prop :=
  name.isBuiltin = true ∨ ∃ located type, l.type? scope name = some located ∧
    located.declaration.definition = .simple type

/-- The content is simple, or derived from that of a type whose content is. What the base of the
simple content has to be is given by `ends`. -/
inductive Content.HasText (l : Linkage) (ends : File → QName → Prop) : File → Content → Prop
  | own {scope : File} {base : QName} {derivation : Derivation} {facets : List Facet}
    (he : ends scope base) : HasText l ends scope (.simple base derivation facets)
  | derived {scope : File} {content : Content} {base : QName} {located : Located NamedType}
    {type : ComplexType} (hbase : content.base? = some base) (hb : base.isBuiltin = false)
    (hl : l.type? scope base = some located)
    (hd : located.declaration.definition = .complex type)
    (h : HasText l ends located.file type.content) : HasText l ends scope content

/-- The name stands for a complex type that has character data. -/
def Linkage.NamesText (l : Linkage) (ends : File → QName → Prop) (scope : File) (base : QName) :
    Prop :=
  base.isBuiltin = false ∧ ∃ located type, l.type? scope base = some located ∧
    located.declaration.definition = .complex type ∧
    type.content.HasText l ends located.file

section

variable {l : Linkage} {ends : File → QName → Prop} {scope : File} {base : QName}
  {content : Content}

theorem Linkage.namesText_iff {located : Located NamedType} {type : ComplexType}
    (hb : base.isBuiltin = false) (hl : l.type? scope base = some located)
    (hd : located.declaration.definition = .complex type) :
    l.NamesText ends scope base ↔ type.content.HasText l ends located.file := by
  constructor
  · rintro ⟨-, found, inner, hfound, hinner, h⟩
    obtain rfl := Option.some.inj (hl.symm.trans hfound)
    obtain rfl := TypeDefinition.complex.inj (hd.symm.trans hinner)
    exact h
  · exact fun h => ⟨hb, located, type, hl, hd, h⟩

/-- A name that stands for a simple type stands for no complex one. -/
theorem Linkage.IsSimpleName.not_complex (h : l.IsSimpleName scope base)
    (hb : base.isBuiltin = false) {located : Located NamedType}
    (hl : l.type? scope base = some located) {type : ComplexType} :
    located.declaration.definition ≠ .complex type := by
  intro hd
  obtain hbuiltin | ⟨found, simple, hfound, hsimple⟩ := h
  · exact Bool.false_ne_true (hb.symm.trans hbuiltin)
  · obtain rfl := Option.some.inj (hl.symm.trans hfound)
    cases hd.symm.trans hsimple

theorem Linkage.IsSimpleName.not_namesText (h : l.IsSimpleName scope base) :
    ¬ l.NamesText ends scope base := by
  rintro ⟨hb, located, type, hl, hd, -⟩
  exact h.not_complex hb hl hd

namespace Content

theorem not_hasText (h : content.base? = none) : ¬ content.HasText l ends scope := by
  intro ht
  cases ht with
  | own he => cases h
  | derived hbase _ _ _ _ => cases h.symm.trans hbase

theorem hasText_simple_iff {derivation : Derivation} {facets : List Facet} :
    (Content.simple base derivation facets).HasText l ends scope ↔
      ends scope base ∨ l.NamesText ends scope base := by
  constructor
  · intro h
    cases h with
    | own he => exact .inl he
    | derived hbase hb hl hd h =>
        obtain rfl := Option.some.inj hbase
        exact .inr ⟨hb, _, _, hl, hd, h⟩
  · rintro (he | ⟨hb, located, type, hl, hd, h⟩)
    · exact .own he
    · exact .derived rfl hb hl hd h

theorem hasText_extension_iff {particle : Option Particle} :
    (Content.extension base particle).HasText l ends scope ↔ l.NamesText ends scope base := by
  constructor
  · intro h
    cases h with
    | derived hbase hb hl hd h =>
        obtain rfl := Option.some.inj hbase
        exact ⟨hb, _, _, hl, hd, h⟩
  · rintro ⟨hb, located, type, hl, hd, h⟩
    exact .derived rfl hb hl hd h

theorem hasText_restriction_iff {particle : Option Particle} :
    (Content.restriction base particle).HasText l ends scope ↔ l.NamesText ends scope base := by
  constructor
  · intro h
    cases h with
    | derived hbase hb hl hd h =>
        obtain rfl := Option.some.inj hbase
        exact ⟨hb, _, _, hl, hd, h⟩
  · rintro ⟨hb, located, type, hl, hd, h⟩
    exact .derived rfl hb hl hd h

end Content

end

namespace Shape

/-- The character data of the second shape is that of the first one or comes on top of it: it does
if there is enough for it, and it only does where it is possible. -/
structure GetsText (enough possible : Prop) (s r : Shape) : Prop where
  there : s.text.isSome = true ∨ enough → r.text.isSome = true
  origin : r.text.isSome = true → s.text.isSome = true ∨ possible

namespace GetsText

variable {enough possible : Prop} {s r : Shape}

theorem of_eq (h : r.text = s.text) (he : ¬ enough) : GetsText enough possible s r where
  there ht := h ▸ ht.resolve_right he
  origin ht := .inl (h ▸ ht)

theorem congr (h : GetsText enough possible s r) {r' : Shape} (ht : r'.text = r.text) :
    GetsText enough possible s r' where
  there hs := ht ▸ h.there hs
  origin hs := h.origin (ht ▸ hs)

theorem of_iff (h : GetsText enough possible s r) {enough' possible' : Prop}
    (he : enough' ↔ enough) (hp : possible' ↔ possible) : GetsText enough' possible' s r where
  there hs := h.there (hs.imp_right he.1)
  origin hs := (h.origin hs).imp_right hp.2

end GetsText

theorem text_addAttribute? {s r : Shape} {name : String} {slot : Slot}
    (h : s.addAttribute? name slot = some r) : r.text = s.text := by
  unfold addAttribute? at h
  split at h
  · cases h
  · exact Option.some.inj h ▸ rfl

theorem text_withChoice (s : Shape) (branches : List Shape) (obliged : Bool) :
    (s.withChoice branches obliged).text = s.text :=
  (slotsOnly_joinBranches s.names branches s).text

theorem text_addReference (s members : Shape) (reference : Json) :
    (s.addReference members reference).text = s.text :=
  (slotsOnly_withPlaceholders members.names s).text

end Shape

namespace Conversion

open Shape

/-- Whatever results has the character data that was there before. -/
abbrev KeepsText (s : Shape) (c : Conversion Shape) : Prop := Yields c fun r => r.text = s.text

variable {context : Context}

/-! ### Attributes -/

theorem keepsText_addAttribute (site : Site) (name : String) (slot : Slot) (s : Shape) :
    KeepsText s (addAttribute context site name slot s) := by
  unfold addAttribute
  split
  · next r hr => exact Yields.pure (text_addAttribute? hr)
  · exact Yields.bind_any fun _ => Yields.pure rfl

section

variable {expand : AttributeExpansion}
  (he : ∀ site located s, KeepsText s (expand site located s))
include he

theorem keepsText_collectUse (site : Site) (s : Shape) (use : AttributeUse) :
    KeepsText s (collectUse context expand site s use) := by
  cases use with
  | declared declaration use =>
      exact Yields.ite (Yields.pure rfl) (Yields.bind_any fun item =>
        keepsText_addAttribute site _ _ s)
  | reference reference use default fixed =>
      exact Yields.bind_any fun located => Yields.ite (Yields.pure rfl)
        (Yields.bind_any fun item => keepsText_addAttribute site _ _ s)
  | group reference =>
      refine Yields.bind_any fun located => (he _ located s).visiting.bind fun r hr => ?_
      refine Yields.pure ?_
      split
      · exact hr
      · exact hr

theorem keepsText_collectUses (site : Site) (s : Shape) (uses : List AttributeUse) :
    KeepsText s (collectUses context expand site s uses) := by
  induction uses generalizing s with
  | nil => exact Yields.pure rfl
  | cons use rest ih =>
      exact (keepsText_collectUse he site s use).bind fun r hr =>
        (ih r).mono fun _ h => h.trans hr

end

theorem keepsText_expandAttributes (depth : Nat) : ∀ site located s,
    KeepsText s (expandAttributes context depth site located s) := by
  induction depth with
  | zero => exact fun _ _ _ => Yields.throw
  | succ depth ih => exact fun site located s => keepsText_collectUses ih site s _

theorem keepsText_collectAttributes (site : Site) (uses : List AttributeUse) (s : Shape) :
    KeepsText s (collectAttributes context site uses s) :=
  keepsText_collectUses (keepsText_expandAttributes _) site s uses

/-! ### Content models -/

/-- Groups are expanded without character data. -/
def ExpandsGroups (expand : Expansions) : Prop :=
  ∀ site located bounds nested s, KeepsText s (expand.group site located bounds nested s)

theorem keepsText_addElement (site : Site) (name : String) (slot : Slot) (s : Shape) :
    KeepsText s (addElement context site name slot s) :=
  (does_addElement context site name slot s).yields.mono fun _ h =>
    h ▸ (slotsOnly_addElement s _ name slot).text

section

variable {expand : Expansions} (he : ExpandsGroups expand)
include he

theorem keepsText_collectGroupRef (site : Site) (reference : QName) (bounds : Bounds)
    (nested : Bool) (s : Shape) :
    KeepsText s (collectGroupRef context expand site reference bounds nested s) := by
  unfold collectGroupRef
  refine Yields.bind_any fun located => Yields.visiting (Yields.ite ?_ ?_)
  · exact Yields.bind_any fun members => Yields.pure (text_addReference s members _)
  · exact he site located bounds nested s

omit he in
theorem keepsText_collectElementRef (site : Site) (reference : QName) (bounds : Bounds)
    (s : Shape) : KeepsText s (collectElementRef context site reference bounds s) :=
  Yields.bind_any fun _ => keepsText_addElement site _ _ s

end

mutual

theorem keepsText_collectParticle {expand : Expansions} (he : ExpandsGroups expand) (site : Site)
    (outer : Bounds) (nested : Bool) (s : Shape) : ∀ p : Particle,
      KeepsText s (collectParticle context expand site outer nested s p)
  | ⟨least, most, term⟩ => by
      unfold collectParticle
      exact Yields.ite (Yields.pure rfl) (keepsText_collectTerm he site _ nested s term)

theorem keepsText_collectTerm {expand : Expansions} (he : ExpandsGroups expand) (site : Site)
    (bounds : Bounds) (nested : Bool) (s : Shape) : ∀ term : Term,
      KeepsText s (collectTerm context expand site bounds nested s term)
  | .element declaration => by
      unfold collectTerm
      exact Yields.bind_any fun _ => keepsText_addElement site _ _ s
  | .elementRef reference => by
      unfold collectTerm
      exact keepsText_collectElementRef site reference bounds s
  | .group group => by
      unfold collectTerm
      exact keepsText_collectGroup he site bounds nested s group
  | .groupRef reference => by
      unfold collectTerm
      exact keepsText_collectGroupRef he site reference bounds nested s
  | .any => by
      unfold collectTerm
      exact Yields.pure rfl

theorem keepsText_collectGroup {expand : Expansions} (he : ExpandsGroups expand) (site : Site)
    (bounds : Bounds) (nested : Bool) (s : Shape) : ∀ group : ModelGroup,
      KeepsText s (collectGroup context expand site bounds nested s group)
  | ⟨.choice, particles⟩ => by
      unfold collectGroup
      refine Yields.ite (Yields.bind_any fun _ => ?_) (Yields.bind_any fun branches => ?_)
      · exact keepsText_collectParticles he site bounds.orNone nested s particles
      · exact (does_addChoice context site _ branches s).yields.mono fun _ h =>
          h ▸ text_withChoice s branches _
  | ⟨.sequence, particles⟩ => by
      unfold collectGroup
      exact keepsText_collectParticles he site bounds nested s particles
  | ⟨.all, particles⟩ => by
      unfold collectGroup
      exact keepsText_collectParticles he site bounds nested s particles

theorem keepsText_collectParticles {expand : Expansions} (he : ExpandsGroups expand) (site : Site)
    (outer : Bounds) (nested : Bool) (s : Shape) : ∀ particles : List Particle,
      KeepsText s (collectParticles context expand site outer nested s particles)
  | [] => by
      unfold collectParticles
      exact Yields.pure rfl
  | p :: rest => by
      unfold collectParticles
      exact (keepsText_collectParticle he site outer nested s p).bind fun r hr =>
        (keepsText_collectParticles he site outer nested r rest).mono fun _ h => h.trans hr

end

/-! ### Bases -/

/-- What results has character data if the content has some over a simple type, and otherwise only
if there is simple content on the way. -/
abbrev GivesText (l : Linkage) (scope : File) (content : Content) (s : Shape)
    (c : Conversion Shape) : Prop :=
  Yields c (GetsText (content.HasText l l.IsSimpleName scope)
    (content.HasText l (fun _ _ => True) scope) s)

/-- Bases are expanded with their character data, and groups without. -/
structure ExpandsText (l : Linkage) (expand : Expansions) : Prop where
  base : ∀ site inheritance located type s,
    GivesText l located.file type.content s (expand.base site inheritance located type s)
  group : ExpandsGroups expand

section

variable {expand : Expansions} (he : ExpandsText context.linkage expand)
include he

theorem yields_collectBase (site : Site) (inheritance : Inheritance) (base : QName) (s : Shape) :
    Yields (collectBase context expand site inheritance base s)
      (GetsText (context.linkage.NamesText context.linkage.IsSimpleName site.scope base)
        (context.linkage.NamesText (fun _ _ => True) site.scope base) s) := by
  unfold collectBase
  split
  · next hb =>
      have same : GetsText (context.linkage.NamesText context.linkage.IsSimpleName site.scope base)
          (context.linkage.NamesText (fun _ _ => True) site.scope base) s s :=
        .of_eq rfl (Linkage.IsSimpleName.not_namesText (.inl hb))
      exact Yields.ite (Yields.pure same) (Yields.bind_any fun _ => Yields.pure same)
  · next hb =>
      rw [Bool.not_eq_true] at hb
      refine (Yields.found fun located hl => hl).bind fun located hl => ?_
      split
      · next type hd =>
          refine (he.base site inheritance located type s).visiting.mono fun r hr => ?_
          exact hr.of_iff (Linkage.namesText_iff hb hl hd) (Linkage.namesText_iff hb hl hd)
      · next type hd =>
          exact Yields.bind_any fun _ => Yields.pure
            (.of_eq rfl (Linkage.IsSimpleName.not_namesText (.inr ⟨located, type, hl, hd⟩)))

omit he in
/-- Facets narrow character data or give it; they take none away. -/
theorem keepsText_narrowText (site : Site) (located : Located NamedType) (facets : List Facet)
    (s : Shape) : Yields (narrowText context site located facets s) fun r =>
      s.text.isSome = true → r.text.isSome = true := by
  unfold narrowText
  split
  · exact Yields.bind_any fun _ => Yields.pure fun _ => rfl
  · exact Yields.bind_any fun _ => Yields.pure id

omit he in
theorem yields_complexBase?_text (site : Site) (base : QName) :
    Yields (complexBase? context site base) fun found =>
      (found = none → context.linkage.IsSimpleName site.scope base) ∧
      ∀ located type, found = some (located, type) → base.isBuiltin = false ∧
        context.linkage.type? site.scope base = some located ∧
        located.declaration.definition = .complex type := by
  unfold complexBase?
  split
  · next hb => exact Yields.pure ⟨fun _ => .inl hb, by simp⟩
  · next hb =>
      rw [Bool.not_eq_true] at hb
      refine (Yields.found fun located hl => hl).bind fun located hl => ?_
      split
      · next type hd =>
          refine Yields.pure ⟨by simp, fun other inner h => ?_⟩
          cases h
          exact ⟨hb, hl, hd⟩
      · next type hd =>
          exact Yields.pure ⟨fun _ => .inr ⟨located, type, hl, hd⟩, by simp⟩

theorem givesText_collectText (site : Site) (base : QName) (derivation : Derivation)
    (facets : List Facet) (s : Shape) :
    GivesText context.linkage site.scope (.simple base derivation facets) s
      (collectText context expand site base derivation facets s) := by
  have possible : (Content.simple base derivation facets).HasText context.linkage
      (fun _ _ => True) site.scope := .own trivial
  unfold collectText
  refine (yields_complexBase?_text site base).bind fun found hf => ?_
  cases found with
  | none => exact Yields.bind_any fun text => Yields.pure ⟨fun _ => rfl, fun _ => .inr possible⟩
  | some found =>
      obtain ⟨located, type⟩ := found
      obtain ⟨hb, hl, hd⟩ := hf.2 located type rfl
      -- the name stands for a complex type, so that enough comes with its content
      have hcontent : (Content.simple base derivation facets).HasText context.linkage
          context.linkage.IsSimpleName site.scope →
          type.content.HasText context.linkage context.linkage.IsSimpleName located.file := by
        intro h
        obtain hsimple | hnames := Content.hasText_simple_iff.1 h
        · exact absurd hd (hsimple.not_complex hb hl)
        · exact (Linkage.namesText_iff hb hl hd).1 hnames
      refine (he.base site .everything located type s).visiting.bind fun r hr => Yields.ite ?_ ?_
      · exact Yields.pure ⟨fun h => hr.there (h.imp_right hcontent), fun _ => .inr possible⟩
      · refine (keepsText_narrowText site located _ r).mono fun t ht => ?_
        exact ⟨fun h => ht (hr.there (h.imp_right hcontent)), fun _ => .inr possible⟩

theorem givesText_collectContent (site : Site) (inheritance : Inheritance) (s : Shape)
    (content : Content) : GivesText context.linkage site.scope content s
      (collectContent context expand site inheritance s content) := by
  -- what a derived type states itself comes behind its base
  have behind : ∀ {enough possible : Prop} (p : Particle) {r : Shape},
      GetsText enough possible s r → Yields (if inheritance = .everything then
        collectParticle context expand site .once false r p else pure r)
        (GetsText enough possible s) := fun p r hr =>
    Yields.ite ((keepsText_collectParticle he.group site .once false r p).mono fun _ => hr.congr)
      (Yields.pure hr)
  cases content with
  | empty =>
      unfold collectContent
      exact Yields.pure (.of_eq rfl (Content.not_hasText rfl))
  | particle p =>
      unfold collectContent
      exact behind p (.of_eq rfl (Content.not_hasText rfl))
  | extension base particle =>
      simp only [GivesText, Content.hasText_extension_iff]
      cases particle with
      | none =>
          unfold collectContent
          exact yields_collectBase he site inheritance base s
      | some p =>
          unfold collectContent
          exact (yields_collectBase he site inheritance base s).bind fun r hr => behind p hr
  | restriction base particle =>
      simp only [GivesText, Content.hasText_restriction_iff]
      cases particle with
      | none =>
          unfold collectContent
          exact yields_collectBase he site .attributes base s
      | some p =>
          unfold collectContent
          exact (yields_collectBase he site .attributes base s).bind fun r hr => behind p hr
  | simple base derivation facets =>
      unfold collectContent
      exact givesText_collectText he site base derivation facets s

theorem givesText_collectComplex (site : Site) (inheritance : Inheritance) (s : Shape)
    (type : ComplexType) : GivesText context.linkage site.scope type.content s
      (collectComplex context expand site inheritance s type) := by
  obtain ⟨content, attributes, anyAttribute, mixed⟩ := type
  have collected : GivesText context.linkage site.scope content s (do
      let shape ← collectContent context expand site inheritance s content
      let shape ← collectAttributes context site attributes shape
      return if anyAttribute then { shape with isOpen := true } else shape) := by
    refine (givesText_collectContent he site inheritance s content).bind fun r hr =>
      (keepsText_collectAttributes site attributes r).bind fun t ht => Yields.pure ?_
    split
    · exact hr.congr ht
    · exact hr.congr ht
  unfold collectComplex
  exact Yields.ite (Yields.bind_any fun _ => collected) collected

end

theorem expandsText_expansions (depth : Nat) :
    ExpandsText context.linkage (expansions context depth) := by
  induction depth with
  | zero => exact ⟨fun _ _ _ _ _ => Yields.throw, fun _ _ _ _ _ => Yields.throw⟩
  | succ depth ih =>
      exact ⟨fun site inheritance located type s => givesText_collectComplex ih
          { site with scope := located.file } inheritance s type,
        fun site located bounds nested s => keepsText_collectGroup ih.group
          { site with scope := located.file } bounds nested s located.declaration.group⟩

end Conversion

end Crosswalk
