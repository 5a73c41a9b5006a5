import Crosswalk.Proofs.Content.Rendering
import Crosswalk.Proofs.Content.Uses
import Crosswalk.Proofs.Linkage.Parts

/-!
# What complex types inherit

A complex type has the attributes that its base has, and its own uses act on them. So its attributes
are what all uses make of nothing when they are taken from the root of the derivation to its end, be
it by extensions or by restrictions. The content of the base is inherited by extensions only, and
with it the elements and the wildcards of its model; the wildcards of attributes are inherited in
any case. Both follow from what is collected of a type, link by link of its derivation.
-/

namespace Crosswalk

open Conversion

namespace Linkage

/-! ### Derivations -/

/-- Content is derived from that of a complex type. -/
def IsBase (l : Linkage) (scope : File) (content : Content) (located : Located NamedType)
    (base : ComplexType) : Prop :=
  ∃ name, content.base? = some name ∧ l.IsComplex scope name located base

/-- The attribute uses of a type and of those it is derived from, the root first. -/
inductive Accumulates (l : Linkage) : File → ComplexType → List UsedAttribute → Prop
  | root {scope : File} {type : ComplexType} {own : List UsedAttribute}
    (hroot : ∀ located base, ¬ l.IsBase scope type.content located base)
    (hown : l.Expands scope type.attributes own) : Accumulates l scope type own
  | derived {scope : File} {type : ComplexType} {located : Located NamedType} {base : ComplexType}
    {inherited own : List UsedAttribute} (hb : l.IsBase scope type.content located base)
    (h : Accumulates l located.file base inherited)
    (hown : l.Expands scope type.attributes own) : Accumulates l scope type (inherited ++ own)

/-- A wildcard is in effect in what is collected of a type: one of its model, if that is asked for,
one of its attributes, or one of its base. -/
inductive Opens (l : Linkage) : File → Inheritance → ComplexType → Prop
  | model {scope file : File} {type : ComplexType} {p : Particle}
    (hp : type.content.particle? = some p) (h : p.Reaches l scope .one (file, .any)) :
    Opens l scope .everything type
  | own {scope : File} {inheritance : Inheritance} {type : ComplexType}
    (h : type.anyAttribute = true) : Opens l scope inheritance type
  | group {scope : File} {inheritance : Inheritance} {type : ComplexType}
    (h : l.HoldsWildcard scope type.attributes) : Opens l scope inheritance type
  | base {scope : File} {inheritance : Inheritance} {type : ComplexType}
    {located : Located NamedType} {base : ComplexType}
    (hb : l.IsBase scope type.content located base)
    (h : Opens l located.file (type.content.inherited inheritance) base) :
    Opens l scope inheritance type

end Linkage

/-- An element of this name is in effect in what is collected of content: one of its model, if that
is asked for, or one of its base. -/
inductive Content.NamesElement (context : Context) : File → Inheritance → Content → String → Prop
  | model {scope : File} {content : Content} {p : Particle} {place : File × Term} {name : String}
    (hp : content.particle? = some p) (h : p.Reaches context.linkage scope .one place)
    (hn : place.2.Names context place.1 name) : NamesElement context scope .everything content name
  | base {scope : File} {inheritance : Inheritance} {content : Content}
    {located : Located NamedType} {base : ComplexType} {name : String}
    (hb : context.linkage.IsBase scope content located base)
    (h : NamesElement context located.file (content.inherited inheritance) base.content name) :
    NamesElement context scope inheritance content name

namespace Linkage

section

variable {l : Linkage} {scope : File} {content : Content} {located located' : Located NamedType}
  {base base' : ComplexType}

theorem IsBase.unique (h : l.IsBase scope content located base)
    (h' : l.IsBase scope content located' base') : located = located' ∧ base = base' := by
  obtain ⟨name, hname, -, hl, hd⟩ := h
  obtain ⟨name', hname', -, hl', hd'⟩ := h'
  obtain rfl := Option.some.inj (hname.symm.trans hname')
  obtain rfl := Option.some.inj (hl.symm.trans hl')
  exact ⟨rfl, TypeDefinition.complex.inj (hd.symm.trans hd')⟩

theorem Accumulates.unique {type : ComplexType} {used others : List UsedAttribute}
    (h : l.Accumulates scope type used) (h' : l.Accumulates scope type others) : used = others := by
  induction h generalizing others with
  | root hroot hown =>
      cases h' with
      | root _ hown' => exact hown.unique hown'
      | derived hb _ _ => exact absurd hb (hroot _ _)
  | derived hb _ hown ih =>
      cases h' with
      | root hroot _ => exact absurd hb (hroot _ _)
      | derived hb' h' hown' =>
          obtain ⟨rfl, rfl⟩ := hb.unique hb'
          rw [ih h', hown.unique hown']

/-- How content is derived makes no difference to attributes. -/
theorem Accumulates.of_base?_eq {type : ComplexType} {used : List UsedAttribute}
    (h : l.Accumulates scope type used) (hc : content.base? = type.content.base?) :
    l.Accumulates scope { type with content } used := by
  cases h with
  | root hroot hown =>
      exact .root (fun located base ⟨name, hname, hl⟩ =>
        hroot located base ⟨name, hc ▸ hname, hl⟩) hown
  | derived hb h hown =>
      obtain ⟨name, hname, hl⟩ := hb
      exact .derived ⟨name, hc.trans hname, hl⟩ h hown

end

/-- The uses that content inherits. -/
def Inherits (l : Linkage) (scope : File) (content : Content) (used : List UsedAttribute) : Prop :=
  (∀ located base, ¬ l.IsBase scope content located base) ∧ used = [] ∨
    ∃ located base, l.IsBase scope content located base ∧ l.Accumulates located.file base used

/-- A wildcard is in effect in what is collected of the base of content. -/
def OpensBase (l : Linkage) (scope : File) (inheritance : Inheritance) (content : Content) : Prop :=
  ∃ located base, l.IsBase scope content located base ∧ l.Opens located.file inheritance base

/-- A wildcard is in effect in the model of content, which is asked for. -/
def OpensModel (l : Linkage) (scope : File) (inheritance : Inheritance) (content : Content) :
    Prop :=
  inheritance = .everything ∧ ∃ p, content.particle? = some p ∧
    ∃ file, p.Reaches l scope .one (file, .any)

section

variable {l : Linkage} {scope : File} {inheritance : Inheritance} {type : ComplexType}

theorem Inherits.accumulates {inherited own : List UsedAttribute}
    (h : l.Inherits scope type.content inherited) (hown : l.Expands scope type.attributes own) :
    l.Accumulates scope type (inherited ++ own) := by
  obtain ⟨hroot, rfl⟩ | ⟨located, base, hb, h⟩ := h
  · exact .root hroot hown
  · exact .derived hb h hown

theorem not_isBase {content : Content} (h : content.base? = none) (located : Located NamedType)
    (base : ComplexType) : ¬ l.IsBase scope content located base := by
  rintro ⟨name, hname, -⟩
  cases h.symm.trans hname

theorem not_opensModel {content : Content} (h : content.particle? = none) :
    ¬ l.OpensModel scope inheritance content := by
  rintro ⟨-, p, hp, -⟩
  cases h.symm.trans hp

theorem opensModel_iff {content : Content} {p : Particle} (hp : content.particle? = some p) :
    l.OpensModel scope .everything content ↔ ∃ file, p.Reaches l scope .one (file, .any) := by
  constructor
  · rintro ⟨-, q, hq, h⟩
    obtain rfl := Option.some.inj (hp.symm.trans hq)
    exact h
  · exact fun h => ⟨rfl, p, hp, h⟩

theorem opens_iff : l.Opens scope inheritance type ↔
    (l.OpensBase scope (type.content.inherited inheritance) type.content ∨
      l.OpensModel scope inheritance type.content) ∨
    l.HoldsWildcard scope type.attributes ∨ type.anyAttribute = true := by
  constructor
  · intro h
    cases h with
    | model hp h => exact .inl (.inr ⟨rfl, _, hp, _, h⟩)
    | own h => exact .inr (.inr h)
    | group h => exact .inr (.inl h)
    | base hb h => exact .inl (.inl ⟨_, _, hb, h⟩)
  · rintro ((⟨located, base, hb, h⟩ | ⟨rfl, p, hp, file, h⟩) | h | h)
    · exact .base hb h
    · exact .model hp h
    · exact .group h
    · exact .own h

end

end Linkage

namespace Conversion

open Shape

variable {context : Context} {simple : List QName}

/-! ### What is collected of types -/

/-- What is collected of a type makes one shape of another. -/
def TakesType (context : Context) (simple : List QName) (scope : File) (inheritance : Inheritance)
    (type : ComplexType) (s r : Shape) : Prop :=
  ∃ used, context.linkage.Accumulates scope type used ∧
    Acquires context simple (type.content.NamesElement context scope inheritance)
      (context.linkage.Opens scope inheritance type) used s r

/-- What is collected of the base of content makes one shape of another. -/
def TakesBase (context : Context) (simple : List QName) (scope : File) (inheritance : Inheritance)
    (content : Content) (s r : Shape) : Prop :=
  ∃ used, context.linkage.Inherits scope content used ∧
    Acquires context simple (fun name => ∃ located base, context.linkage.IsBase scope content
        located base ∧ base.content.NamesElement context located.file inheritance name)
      (context.linkage.OpensBase scope inheritance content) used s r

/-- What is collected of content makes one shape of another. -/
def TakesContent (context : Context) (simple : List QName) (scope : File)
    (inheritance : Inheritance) (content : Content) (s r : Shape) : Prop :=
  ∃ used, context.linkage.Inherits scope content used ∧
    Acquires context simple (content.NamesElement context scope inheritance)
      (context.linkage.OpensBase scope (content.inherited inheritance) content ∨
        context.linkage.OpensModel scope inheritance content) used s r

section

variable {scope : File} {inheritance : Inheritance} {content : Content} {s t r : Shape}

/-- A type is the base of content. -/
theorem TakesType.base {located : Located NamedType} {type : ComplexType}
    (h : TakesType context simple located.file inheritance type s r)
    (hb : context.linkage.IsBase scope content located type) :
    TakesBase context simple scope inheritance content s r := by
  obtain ⟨used, hused, hr⟩ := h
  refine ⟨used, .inr ⟨located, type, hb, hused⟩,
    hr.mono (fun name hn => ⟨located, type, hb, hn⟩)
      ⟨fun ⟨located', base, hb', ho⟩ => ?_, fun ho => ⟨located, type, hb, ho⟩⟩⟩
  obtain ⟨rfl, rfl⟩ := hb.unique hb'
  exact ho

/-- Content without a base inherits nothing. -/
theorem takesBase_self (h : ∀ located base, ¬ context.linkage.IsBase scope content located base)
    (s : Shape) : TakesBase context simple scope inheritance content s s :=
  ⟨[], .inl ⟨h, rfl⟩, (Acquires.refl s).mono (fun _ => False.elim)
    (iff_false_intro fun ⟨located, base, hb, _⟩ => h located base hb)⟩

theorem TakesBase.withText (h : TakesBase context simple scope inheritance content s r)
    (text : Option Json) :
    TakesBase context simple scope inheritance content s { r with text } := by
  obtain ⟨used, hused, hr⟩ := h
  exact ⟨used, hused, hr.kept, hr.elements, hr.isOpen, hr.converted, hr.properties⟩

/-- The model of content comes behind its base. -/
theorem TakesBase.model
    (h : TakesBase context simple scope (content.inherited inheritance) content s t)
    (hr : Gathers (content.NamesElement context scope inheritance)
      (context.linkage.OpensModel scope inheritance content) t r) :
    TakesContent context simple scope inheritance content s r := by
  obtain ⟨used, hused, ht⟩ := h
  exact ⟨used, hused, (ht.gathers hr).mono
    (fun name hn => hn.elim (fun ⟨located, base, hb, hn⟩ => .base hb hn) id) .rfl⟩

/-- Content without a model is collected of its base alone. -/
theorem TakesBase.alone (hp : content.particle? = none)
    (h : TakesBase context simple scope (content.inherited inheritance) content s t) :
    TakesContent context simple scope inheritance content s t :=
  h.model (.refl _ (Linkage.not_opensModel hp) t)

/-- The attributes of a type come behind its content. -/
theorem TakesContent.attributes {type : ComplexType}
    (h : TakesContent context simple scope inheritance type.content s t)
    (hr : TakesUses context simple scope type.attributes t r) :
    TakesType context simple scope inheritance type s
      (if type.anyAttribute then { r with isOpen := true } else r) := by
  obtain ⟨inherited, hinherited, ht⟩ := h
  obtain ⟨own, hown, hr⟩ := hr
  exact ⟨inherited ++ own, hinherited.accumulates hown,
    (ht.trans (hr.opened type.anyAttribute)).mono (fun name => (or_iff_left id).1)
      Linkage.opens_iff⟩

end

theorem complex_ne : Expandable.complex ≠ .simple := Expandable.noConfusion

/-- Bases are expanded to what is collected of them, and groups to what their particles reach. -/
structure TakesBases (context : Context) (simple : List QName) (expand : Expansions) : Prop where
  steady : expand.In @Steady
  base : ∀ site inheritance located type s, YieldsInside simple
    (expand.base site inheritance located type s)
    (TakesType context simple located.file inheritance type s)
  group : GathersGroups context expand

section

variable {expand : Expansions} (he : TakesBases context simple expand)
include he

omit he in
/-- A construct is noted, and nothing is collected. -/
theorem takesBase_diagnosed {site : Site} {inheritance : Inheritance} {content : Content}
    (h : ∀ located base, ¬ context.linkage.IsBase site.scope content located base)
    (construct : String) (s : Shape) : YieldsInside simple (do
      site.diagnose context construct
      return s) (TakesBase context simple site.scope inheritance content s) :=
  (Yields.bind_any fun _ => Yields.pure (takesBase_self h s)).inside
    (steady_map (fun _ => s) (isClosed_steady.site_diagnose context site construct))

theorem takesBase_collectBase (site : Site) (inheritance : Inheritance) {content : Content}
    {base : QName} (hc : content.base? = some base) (s : Shape) :
    YieldsInside simple (collectBase context expand site inheritance base s)
      (TakesBase context simple site.scope inheritance content s) := by
  have hname : ∀ {located type}, context.linkage.IsBase site.scope content located type →
      context.linkage.IsComplex site.scope base located type := by
    rintro located type ⟨name, hname, hl⟩
    obtain rfl := Option.some.inj (hc.symm.trans hname)
    exact hl
  unfold collectBase
  split
  · next hb =>
      have hnone : ∀ located type, ¬ context.linkage.IsBase site.scope content located type :=
        fun _ _ h => absurd hb (by simp [(hname h).1])
      split
      · exact YieldsInside.pure (takesBase_self hnone s)
      · exact takesBase_diagnosed hnone _ s
  · next hb =>
      rw [Bool.not_eq_true] at hb
      refine (YieldsInside.found _ _ _).bind fun located hl => ?_
      split
      · next type hd =>
          exact ((he.base site inheritance located type s).visiting complex_ne).mono fun r hr =>
            hr.base ⟨base, hc, hb, hl, hd⟩
      · next type hd =>
          refine takesBase_diagnosed (fun located' type' h => ?_) _ s
          obtain ⟨-, hl', hd'⟩ := hname h
          obtain rfl := Option.some.inj (hl.symm.trans hl')
          cases hd.symm.trans hd'

omit he in
theorem yields_narrowText_withText (site : Site) (located : Located NamedType)
    (facets : List Facet) (s : Shape) :
    Yields (narrowText context site located facets s) fun r => ∃ text, r = { s with text } := by
  unfold narrowText
  split
  · exact Yields.bind_any fun narrowed => Yields.pure ⟨_, rfl⟩
  · exact Yields.bind_any fun _ => Yields.pure ⟨s.text, rfl⟩

theorem takesBase_collectText (site : Site) (base : QName) (derivation : Derivation)
    (facets : List Facet) (s : Shape) :
    YieldsInside simple (collectText context expand site base derivation facets s)
      (TakesBase context simple site.scope .everything (.simple base derivation facets) s) := by
  unfold collectText
  refine ((yields_complexBase?_text site base).inside
    (isClosed_steady.complexBase? context site base)).bind fun found hf => ?_
  cases found with
  | none =>
      have hnone : ∀ located type, ¬ context.linkage.IsBase site.scope
          (.simple base derivation facets) located type := by
        rintro located type ⟨name, hname, hb, hl, hd⟩
        obtain rfl := Option.some.inj hname
        exact (hf.1 rfl).not_complex hb hl hd
      exact (Yields.bind_any fun text => Yields.pure ((takesBase_self hnone s).withText _)).inside
        (steady_map _ (isClosed_steady.textSchema context site base _))
  | some found =>
      obtain ⟨located, type⟩ := found
      have hb : context.linkage.IsBase site.scope (.simple base derivation facets) located type :=
        ⟨base, rfl, hf.2 located type rfl⟩
      refine ((he.base site .everything located type s).visiting complex_ne).bind fun r hr => ?_
      have hbase := hr.base hb
      refine YieldsInside.ite (YieldsInside.pure hbase) ?_
      refine ((yields_narrowText_withText site located _ r).inside
        (isClosed_steady.narrowText context site located _ r)).mono ?_
      rintro t ⟨text, rfl⟩
      exact hbase.withText text

/-- What content states itself comes behind its base, if it is asked for. -/
theorem takesContent_behind (site : Site) {inheritance : Inheritance} {content : Content}
    {p : Particle} (hp : content.particle? = some p) {s t : Shape}
    (ht : TakesBase context simple site.scope (content.inherited inheritance) content s t) :
    YieldsInside simple (if inheritance = .everything then
        collectParticle context expand site .once false t p else pure t)
      (TakesContent context simple site.scope inheritance content s) := by
  split
  · next hi =>
      subst hi
      refine ((brings_collectParticle he.group site .once false t p).inside
        (isClosed_steady.collectParticle context expand he.steady site .once false t p)).mono
          fun r hr => ht.model (Gathers.mono hr ?_ (Linkage.opensModel_iff hp))
      rintro name ⟨place, hreaches, hn⟩
      exact .model hp hreaches hn
  · next hi => exact YieldsInside.pure (ht.model (.refl _ (fun ho => hi ho.1) t))

theorem takesContent_collectContent (site : Site) (inheritance : Inheritance) (s : Shape)
    (content : Content) : YieldsInside simple
      (collectContent context expand site inheritance s content)
      (TakesContent context simple site.scope inheritance content s) := by
  cases content with
  | empty =>
      unfold collectContent
      exact YieldsInside.pure ((takesBase_self (Linkage.not_isBase rfl) s).alone rfl)
  | particle p =>
      unfold collectContent
      exact takesContent_behind he site rfl (takesBase_self (Linkage.not_isBase rfl) s)
  | extension base particle =>
      cases particle with
      | none =>
          unfold collectContent
          exact (takesBase_collectBase he site inheritance rfl s).mono fun r hr => hr.alone rfl
      | some p =>
          unfold collectContent
          exact (takesBase_collectBase he site inheritance rfl s).bind fun r hr =>
            takesContent_behind he site rfl hr
  | restriction base particle =>
      cases particle with
      | none =>
          unfold collectContent
          exact (takesBase_collectBase he site .attributes rfl s).mono fun r hr => hr.alone rfl
      | some p =>
          unfold collectContent
          exact (takesBase_collectBase he site .attributes rfl s).bind fun r hr =>
            takesContent_behind he site rfl hr
  | simple base derivation facets =>
      unfold collectContent
      exact (takesBase_collectText he site base derivation facets s).mono fun r hr => hr.alone rfl

theorem takesType_collectComplex (site : Site) (inheritance : Inheritance) (s : Shape)
    (type : ComplexType) : YieldsInside simple
      (collectComplex context expand site inheritance s type)
      (TakesType context simple site.scope inheritance type s) := by
  obtain ⟨content, attributes, anyAttribute, mixed⟩ := type
  have collected : YieldsInside simple (do
      let shape ← collectContent context expand site inheritance s content
      let shape ← collectAttributes context site attributes shape
      return if anyAttribute then { shape with isOpen := true } else shape)
      (TakesType context simple site.scope inheritance ⟨content, attributes, anyAttribute, mixed⟩
        s) :=
    (takesContent_collectContent he site inheritance s content).bind fun t ht =>
      (takesUses_collectAttributes site attributes t).bind fun r hr =>
        YieldsInside.pure (TakesContent.attributes ht hr)
  unfold collectComplex
  exact YieldsInside.ite ((Yields.trivial.inside
    (isClosed_steady.site_diagnose context site _)).bind fun _ _ => collected) collected

end

theorem takesBases_expansions (context : Context) (simple : List QName) (depth : Nat) :
    TakesBases context simple (expansions context depth) := by
  induction depth with
  | zero =>
      exact ⟨isClosed_steady.expansions context 0,
        fun _ _ _ _ _ => Yields.throw.inside (steady_throw _), gathersGroups_expansions context 0⟩
  | succ depth ih =>
      exact ⟨isClosed_steady.expansions context (depth + 1),
        fun site inheritance located type s => takesType_collectComplex ih
          { site with scope := located.file } inheritance s type,
        gathersGroups_expansions context (depth + 1)⟩

/-! ### The attributes of an object -/

/-- A name other than that of the character data is described by its slot, and asked for if that is
required. -/
theorem described_slot {shape : Shape} (h : shape.IsMade) {name : String}
    (ht : name = context.options.textProperty → shape.text = none) :
    Table.find? (objectSchema context shape).described name = (shape.slot? name).map Slot.schema ∧
      (name ∈ (objectSchema context shape).demanded ↔
        (shape.slot? name).map Slot.required = some true) := by
  rw [objectSchema, h.described_schema, h.demanded_schema, find?_properties h.nodup]
  constructor
  · have hor : (if name = context.options.textProperty then shape.text else none) = none := by
      split
      · next he => exact ht he
      · rfl
    rw [property?, hor, Option.or_none]
  · rw [requiredProperties, List.mem_append, mem_requiredNames_iff h.nodup, Option.map_eq_some_iff]
    refine or_iff_right fun hm => ?_
    obtain ⟨text, hmem, rfl⟩ := List.mem_map.1 hm
    rw [ht rfl] at hmem
    exact absurd hmem List.not_mem_nil

variable {depth : Nat} {site : Site} {type : ComplexType} {s t : ConversionState} {shape : Shape}

/-- A type without character data in effect is collected to a shape without any. -/
theorem text_eq_none
    (h : run (collectComplex context (expansions context depth) site .everything {} type) s =
      (.ok shape, t)) (ht : ¬ type.content.HasText context.linkage (fun _ _ => True) site.scope) :
    shape.text = none := by
  have htext := givesText_collectComplex (expandsText_expansions depth) site .everything {} type
    s t shape h
  rw [← Option.not_isSome_iff_eq_none]
  exact fun hsome => (htext.origin hsome).elim Bool.false_ne_true ht

/-- The attribute properties of a complex type that is converted are what the uses of its derivation
make of nothing when they are taken from the root to the end, each type's own in order and with
groups expanded in place. There is one list of these uses, in which it makes no difference how a
type is derived from its base; and all that are not prohibited convert, as they do inside of no more
than the simple types that the conversion is inside of. What is said of a name holds if neither an
element in effect nor the character data has it. -/
theorem attributes_accumulate
    (h : run (collectComplex context (expansions context depth) site .everything {} type) s =
      (.ok shape, t)) :
    ∃ used, context.linkage.Accumulates site.scope type used ∧
      (∀ others, context.linkage.Accumulates site.scope type others → others = used) ∧
      (∀ content, content.base? = type.content.base? →
        context.linkage.Accumulates site.scope { type with content } used) ∧
      (∀ a ∈ used, a.use ≠ .prohibited →
        ∃ schema, a.schema context s.visited.simple = .ok schema) ∧
      ∀ name, ¬ type.content.NamesElement context site.scope .everything name →
        (name = context.options.textProperty →
          ¬ type.content.HasText context.linkage (fun _ _ => True) site.scope) →
        let property := UsedAttribute.applyAll context s.visited.simple used (fun _ => none) name
        Table.find? (objectSchema context shape).described name = property.map (·.1) ∧
          (name ∈ (objectSchema context shape).demanded ↔ property.map (·.2) = some true) := by
  obtain ⟨⟨used, hused, hr⟩, -⟩ := takesType_collectComplex
    (takesBases_expansions context s.visited.simple depth) site .everything {} type s t shape rfl h
  refine ⟨used, hused, fun others ho => ho.unique hused, fun content hc => hused.of_base?_eq hc,
    hr.converted, fun name hn htext => ?_⟩
  have helement : ¬ shape.HasElement name := fun he =>
    (hr.elements name he).elim (not_hasElement_empty name) hn
  have hslot : (shape.slot? name).map (fun slot => (slot.schema, slot.required)) =
      UsedAttribute.applyAll context s.visited.simple used (fun _ => none) name := by
    rw [← find?_attributes helement]
    exact hr.properties name helement
  obtain ⟨hdescribed, hdemanded⟩ := described_slot (yields_isMade depth site type s t shape h)
    fun he => text_eq_none h (htext he)
  dsimp only
  rw [← hslot, hdescribed, hdemanded, Option.map_map, Option.map_map]
  exact ⟨rfl, Iff.rfl⟩

/-- An attribute of any simple value. -/
def plainAttribute (name : String) : Attribute := ⟨⟨"", name⟩, false, none, none, none, none⟩

/-- A type with two attributes. -/
def twoAttributes : NamedType :=
  ⟨⟨"", "Base"⟩, .complex ⟨.empty, [.declared (plainAttribute "a") .required,
    .declared (plainAttribute "b") .optional], false, false⟩, none⟩

/-- A batch with the type, and with a group of attributes. -/
def withBase : Context := { bare with
  linkage := ⟨⟨[]⟩, .strict, {
    types := [(⟨"", "Base"⟩, ⟨bare.file, twoAttributes⟩)]
    attributeGroups := [(⟨"", "Common"⟩, ⟨bare.file, ⟨⟨"", "Common"⟩,
      [.declared (plainAttribute "c") .optional], false⟩⟩)] }, []⟩ }

/-- A restriction of the type that takes an attribute away and adds those of the group. -/
def restricted : ComplexType :=
  ⟨.restriction ⟨"", "Base"⟩ none, [.declared (plainAttribute "b") .prohibited,
    .group ⟨"", "Common"⟩], false, false⟩

/-- What the restriction is converted to. -/
def restrictedResult : Except Problem Shape × ConversionState :=
  run (collectComplex withBase (expansions withBase 1) ⟨bare.file, ""⟩ .everything {} restricted) {}

theorem restrictedResult_isOk : restrictedResult.1.isOk = true := by decide +kernel

/-- The uses of the base, and then those of the restriction. -/
def restrictedUses : List UsedAttribute :=
  [⟨bare.file, plainAttribute "a", .required, none, none⟩,
    ⟨bare.file, plainAttribute "b", .optional, none, none⟩,
    ⟨bare.file, plainAttribute "b", .prohibited, none, none⟩,
    ⟨bare.file, plainAttribute "c", .optional, none, none⟩]

theorem isBase_restricted : withBase.linkage.IsBase bare.file restricted.content
    ⟨bare.file, twoAttributes⟩ ⟨.empty, [.declared (plainAttribute "a") .required,
      .declared (plainAttribute "b") .optional], false, false⟩ :=
  ⟨_, rfl, rfl, rfl, rfl⟩

theorem accumulates_restrictedUses :
    withBase.linkage.Accumulates bare.file restricted restrictedUses := by
  have hgroup : withBase.linkage.Expands bare.file [.group ⟨"", "Common"⟩]
      ([⟨bare.file, plainAttribute "c", .optional, none, none⟩] ++ []) :=
    .group rfl (.declared .nil) .nil
  exact .derived isBase_restricted
    (.root (fun _ _ ⟨_, hname, _⟩ => nomatch hname) (.declared (.declared .nil)))
    (.declared hgroup)

theorem not_namesElement_restricted (name : String) :
    ¬ restricted.content.NamesElement withBase bare.file .everything name := by
  intro h
  cases h with
  | model hp _ _ => exact nomatch hp
  | base hb h =>
      obtain ⟨rfl, rfl⟩ := isBase_restricted.unique hb
      cases h with
      | base hb _ =>
          obtain ⟨_, hname, _⟩ := hb
          exact nomatch hname

theorem properties_restrictedUses :
    (UsedAttribute.applyAll withBase [] restrictedUses (fun _ => none) "a").map (·.2) = some true ∧
      (UsedAttribute.applyAll withBase [] restrictedUses (fun _ => none) "b").map (·.2) = none ∧
      (UsedAttribute.applyAll withBase [] restrictedUses (fun _ => none) "c").map (·.2) =
        some false := by
  decide +kernel

theorem attributes_accumulate_restricted :
    ∃ shape t, restrictedResult = (.ok shape, t) ∧
      "a" ∈ (objectSchema withBase shape).demanded ∧
      Table.find? (objectSchema withBase shape).described "b" = none ∧
      (Table.find? (objectSchema withBase shape).described "c").isSome = true ∧
      "c" ∉ (objectSchema withBase shape).demanded := by
  obtain ⟨shape, t, h⟩ := exists_of_isOk restrictedResult_isOk
  obtain ⟨used, -, hunique, -, -, hnames⟩ := attributes_accumulate h
  obtain rfl := hunique _ accumulates_restrictedUses
  obtain ⟨ha, hb, hc⟩ := properties_restrictedUses
  have property := fun name hne => hnames name (not_namesElement_restricted name)
    fun he => absurd he hne
  refine ⟨shape, t, h, (property "a" (by decide)).2.2 ha, ?_, ?_, fun hm => ?_⟩
  · rw [(property "b" (by decide)).1, Option.map_eq_none_iff]
    exact Option.map_eq_none_iff.1 hb
  · obtain ⟨entry, hentry, -⟩ := Option.map_eq_some_iff.1 hc
    rw [(property "c" (by decide)).1, Option.isSome_map]
    exact Option.isSome_of_eq_some hentry
  · exact Bool.false_ne_true (Option.some.inj (hc.symm.trans ((property "c" (by decide)).2.1 hm)))

end Conversion

end Crosswalk
