import Crosswalk.Proofs.Content.Inheritance
import Crosswalk.Proofs.Conversion.Merging

/-!
# Objects that are open

An object refuses the members that it does not declare if the options say so, unless a wildcard is
in effect: one among the elements of the content, which a type has itself or takes over through
extensions, or one among the attributes, which a type has itself or takes over in any case.
-/

namespace Crosswalk

open Json Conversion

/-- Character data, which may be that of a base. -/
def Content.IsSimple : Content → Prop
  | .simple _ _ _ => True
  | _ => False

namespace Linkage

/-- A complex type, with the file that states it, is derived from another one. -/
def DerivesFrom (l : Linkage) (a b : File × ComplexType) : Prop :=
  ∃ located, l.IsBase a.1 a.2.content located b.2 ∧ b.1 = located.file

/-- A complex type is derived from another one by extension. -/
def ExtendsBase (l : Linkage) (a b : File × ComplexType) : Prop :=
  (∃ name particle, a.2.content = .extension name particle) ∧ l.DerivesFrom a b

/-- The model of content reaches a wildcard. -/
def ModelHoldsWildcard (l : Linkage) (scope : File) (content : Content) : Prop :=
  ∃ p, content.particle? = some p ∧ ∃ file, p.Reaches l scope .one (file, .any)

/-- A type admits attributes that it does not list, by itself or by a group of attributes. -/
def AttributesHoldWildcard (l : Linkage) (scope : File) (type : ComplexType) : Prop :=
  type.anyAttribute = true ∨ l.HoldsWildcard scope type.attributes

variable {l : Linkage} {scope : File} {type : ComplexType} {inheritance : Inheritance}

theorem IsBase.derivesFrom {located : Located NamedType} {base : ComplexType}
    (h : l.IsBase scope type.content located base) :
    l.DerivesFrom (scope, type) (located.file, base) :=
  ⟨located, h, rfl⟩

/-- All of a base is asked for only if all of the type is, and the type extends it. -/
theorem IsBase.extendsBase {located : Located NamedType} {base : ComplexType}
    (h : l.IsBase scope type.content located base) (hsimple : ¬ type.content.IsSimple)
    (hi : type.content.inherited inheritance = .everything) :
    inheritance = .everything ∧ l.ExtendsBase (scope, type) (located.file, base) := by
  have hderives := h.derivesFrom
  obtain ⟨content, attributes, anyAttribute, mixed⟩ := type
  cases content with
  | extension name particle => exact ⟨hi, ⟨name, particle, rfl⟩, hderives⟩
  | simple => exact absurd trivial hsimple
  | _ => exact nomatch hi

/-- Where a wildcard that is in effect comes from. -/
theorem Opens.origin (h : l.Opens scope inheritance type)
    (hsimple : ∀ place, Relation.ReflTransGen l.DerivesFrom (scope, type) place →
      ¬ place.2.content.IsSimple) :
    (inheritance = .everything ∧ ∃ place, Relation.ReflTransGen l.ExtendsBase (scope, type) place ∧
      l.ModelHoldsWildcard place.1 place.2.content) ∨
    ∃ place, Relation.ReflTransGen l.DerivesFrom (scope, type) place ∧
      l.AttributesHoldWildcard place.1 place.2 := by
  induction h with
  | model hp h => exact .inl ⟨rfl, _, .refl, _, hp, _, h⟩
  | own h => exact .inr ⟨_, .refl, .inl h⟩
  | group h => exact .inr ⟨_, .refl, .inr h⟩
  | base hb _ ih =>
      rcases ih fun place hplace => hsimple place (.head hb.derivesFrom hplace) with
        ⟨hi, place, hplace, h⟩ | ⟨place, hplace, h⟩
      · obtain ⟨hi, hextends⟩ := hb.extendsBase (hsimple _ .refl) hi
        exact .inl ⟨hi, place, .head hextends hplace, h⟩
      · exact .inr ⟨place, .head hb.derivesFrom hplace, h⟩

theorem opens_of_extendsBase {a place : File × ComplexType}
    (h : Relation.ReflTransGen l.ExtendsBase a place)
    (hw : l.ModelHoldsWildcard place.1 place.2.content) : l.Opens a.1 .everything a.2 := by
  induction h using Relation.ReflTransGen.head_induction_on with
  | refl =>
      obtain ⟨p, hp, file, h⟩ := hw
      exact .model hp h
  | head hab _ ih =>
      obtain ⟨⟨name, particle, hc⟩, located, hb, hfile⟩ := hab
      refine .base hb ?_
      rw [hc, ← hfile]
      exact ih

theorem opens_of_derivesFrom {a place : File × ComplexType}
    (h : Relation.ReflTransGen l.DerivesFrom a place)
    (hw : l.AttributesHoldWildcard place.1 place.2) (inheritance : Inheritance) :
    l.Opens a.1 inheritance a.2 := by
  induction h using Relation.ReflTransGen.head_induction_on generalizing inheritance with
  | refl => exact hw.elim .own .group
  | head hab _ ih =>
      obtain ⟨located, hb, hfile⟩ := hab
      refine .base hb ?_
      rw [← hfile]
      exact ih _

/-- A wildcard is in effect if and only if a type that is reached through extensions has one in its
model, or one that is reached through derivations has one among its attributes. -/
theorem opens_everything_iff
    (hsimple : ∀ place, Relation.ReflTransGen l.DerivesFrom (scope, type) place →
      ¬ place.2.content.IsSimple) :
    l.Opens scope .everything type ↔
      (∃ place, Relation.ReflTransGen l.ExtendsBase (scope, type) place ∧
        l.ModelHoldsWildcard place.1 place.2.content) ∨
      ∃ place, Relation.ReflTransGen l.DerivesFrom (scope, type) place ∧
        l.AttributesHoldWildcard place.1 place.2 := by
  constructor
  · exact fun h => (h.origin hsimple).imp_left And.right
  · rintro (⟨place, hplace, h⟩ | ⟨place, hplace, h⟩)
    · exact opens_of_extendsBase hplace h
    · exact opens_of_derivesFrom hplace h .everything

end Linkage

namespace Shape

/-- The schema of an object refuses members that it does not declare if it is closed and the shape
is not open. -/
theorem IsMade.refuses_iff {s : Shape} (h : s.IsMade) (closed : Bool) (textProperty : String) :
    (s.schema closed textProperty).field? "additionalProperties" = some (.bool false) ↔
      closed = true ∧ s.isOpen = false := by
  rw [schema_eq, field?]
  by_cases hc : (closed && !s.isOpen) = true
  · have hmem : ("additionalProperties", Json.bool false) ∈ s.keywords closed textProperty := by
      simp [keywords, hc]
    rw [h.find?_keywords hmem]
    simpa using hc
  · have hnone : Table.find? (Table.ofList (s.keywords closed textProperty))
        "additionalProperties" = none := by
      refine Table.find?_ofList_eq_none ?_
      unfold keywords
      rcases h.constraints_cases with ⟨-, -, hs⟩ | ⟨keyword, schemas, rfl | rfl, -, -, hs⟩ | hs <;>
        (rw [hs]; dsimp only; rw [if_neg hc]; split_ifs <;> simp)
    rw [hnone]
    simpa using hc

end Shape

namespace Conversion

variable {context : Context} {depth : Nat} {site : Site} {type : ComplexType}
  {s t : ConversionState} {shape : Shape}

/-- The shape of a complex type is open if and only if a wildcard is in effect. -/
theorem isOpen_iff_opens
    (h : run (collectComplex context (expansions context depth) site .everything {} type) s =
      (.ok shape, t)) :
    shape.isOpen = true ↔ context.linkage.Opens site.scope .everything type := by
  obtain ⟨⟨used, -, hr⟩, -⟩ := takesType_collectComplex
    (takesBases_expansions context s.visited.simple depth) site .everything {} type s t shape rfl h
  rw [hr.isOpen]
  exact or_iff_right Bool.false_ne_true

/-- If objects are to be closed, that of a type without simple content in its derivation admits
members that it does not declare if and only if a wildcard is in effect. If they are not, no object
of a type or of a model group refuses them. -/
theorem admits_others_iff
    (h : run (collectComplex context (expansions context depth) site .everything {} type) s =
      (.ok shape, t))
    (hsimple : ∀ place, Relation.ReflTransGen context.linkage.DerivesFrom (site.scope, type) place →
      ¬ place.2.content.IsSimple) :
    (context.options.isClosed = true →
      ((objectSchema context shape).field? "additionalProperties" ≠ some (.bool false) ↔
        (∃ place, Relation.ReflTransGen context.linkage.ExtendsBase (site.scope, type) place ∧
          context.linkage.ModelHoldsWildcard place.1 place.2.content) ∨
        ∃ place, Relation.ReflTransGen context.linkage.DerivesFrom (site.scope, type) place ∧
          context.linkage.AttributesHoldWildcard place.1 place.2)) ∧
    (context.options.isClosed = false → ∀ rendered, IsCollected context rendered →
      (objectSchema context rendered).field? "additionalProperties" ≠ some (.bool false)) := by
  have hmade := yields_isMade depth site type s t shape h
  refine ⟨fun hclosed => ?_, fun hopen rendered hr => ?_⟩
  · rw [← Linkage.opens_everything_iff hsimple, ← isOpen_iff_opens h, objectSchema, Ne,
      hmade.refuses_iff, not_and, Bool.not_eq_false]
    exact forall_prop_of_true hclosed
  · rw [objectSchema, Ne, hr.isMade.refuses_iff, hopen]
    exact fun hc => Bool.false_ne_true hc.1

/-- A type that holds a wildcard in a branch of a choice. -/
def loose : ComplexType :=
  ⟨.particle ⟨.one, .one, .group ⟨.sequence,
    [⟨.one, .one, .group ⟨.choice, [child "a", ⟨.one, .one, .any⟩]⟩⟩]⟩⟩, [], false, false⟩

/-- A batch with the type. -/
def withLoose : Context := { bare with
  linkage := ⟨⟨[]⟩, .strict, {
    types := [(⟨"", "Loose"⟩, ⟨bare.file, ⟨⟨"", "Loose"⟩, .complex loose, none⟩⟩)] }, []⟩ }

/-- A type that states nothing but its base. -/
def derivedFromLoose (content : QName → Option Particle → Content) : ComplexType :=
  ⟨content ⟨"", "Loose"⟩ none, [], false, false⟩

/-- What such a type is converted to. -/
def derivedResult (content : QName → Option Particle → Content) :
    Except Problem Shape × ConversionState :=
  run (collectComplex withLoose (expansions withLoose 1) ⟨bare.file, ""⟩ .everything {}
    (derivedFromLoose content)) {}

theorem derivedResult_extension_isOk : (derivedResult .extension).1.isOk = true := by
  decide +kernel

theorem derivedResult_restriction_isOk : (derivedResult .restriction).1.isOk = true := by
  decide +kernel

section

variable {content : QName → Option Particle → Content} {place : File × ComplexType}
  (hbase : (content ⟨"", "Loose"⟩ none).base? = some ⟨"", "Loose"⟩)
  (h : Relation.ReflTransGen withLoose.linkage.DerivesFrom (bare.file, derivedFromLoose content)
    place)
include hbase h

/-- The derivation of such a type ends at its base. -/
theorem eq_of_derivesFrom :
    place = (bare.file, derivedFromLoose content) ∨ place = (bare.file, loose) := by
  rcases h.cases_head with rfl | ⟨next, ⟨located, hb, hfile⟩, h⟩
  · exact .inl rfl
  · have hl : withLoose.linkage.IsBase bare.file (derivedFromLoose content).content
        ⟨bare.file, ⟨⟨"", "Loose"⟩, .complex loose, none⟩⟩ loose := ⟨_, hbase, rfl, rfl, rfl⟩
    obtain ⟨rfl, hloose⟩ := hb.unique hl
    obtain rfl : next = (bare.file, loose) := Prod.ext hfile hloose
    rcases h.cases_head with rfl | ⟨last, ⟨_, ⟨_, hnone, _⟩, _⟩, _⟩
    · exact .inr rfl
    · exact nomatch hnone

theorem not_isSimple_derived (hsimple : ¬ (content ⟨"", "Loose"⟩ none).IsSimple) :
    ¬ place.2.content.IsSimple := by
  rcases eq_of_derivesFrom hbase h with rfl | rfl
  · exact hsimple
  · exact id

/-- The type and its base have no attributes. -/
theorem not_attributesHoldWildcard_derived :
    ¬ withLoose.linkage.AttributesHoldWildcard place.1 place.2 := by
  rcases eq_of_derivesFrom hbase h with rfl | rfl <;>
    exact not_or_intro Bool.false_ne_true (Linkage.not_holdsWildcard fun _ => List.not_mem_nil)

end

theorem modelHoldsWildcard_loose : withLoose.linkage.ModelHoldsWildcard bare.file loose.content :=
  ⟨_, rfl, bare.file, .inside (by decide) .nested (List.mem_singleton_self _)
    (.inside (by decide) .nested (.tail _ (List.mem_singleton_self _)) (.own (by decide)))⟩

theorem extendsBase_loose : withLoose.linkage.ExtendsBase
    (bare.file, derivedFromLoose .extension) (bare.file, loose) :=
  ⟨⟨_, _, rfl⟩, ⟨bare.file, ⟨"", "Loose"⟩, .complex loose, none⟩, ⟨_, rfl, rfl, rfl, rfl⟩, rfl⟩

/-- Nothing is reached from a restriction through extensions. -/
theorem not_modelHoldsWildcard_restriction {place : File × ComplexType}
    (h : Relation.ReflTransGen withLoose.linkage.ExtendsBase
      (bare.file, derivedFromLoose .restriction) place) :
    ¬ withLoose.linkage.ModelHoldsWildcard place.1 place.2.content := by
  rcases h.cases_head with rfl | ⟨_, ⟨⟨_, _, hc⟩, _⟩, _⟩
  · exact fun ⟨_, hnone, _⟩ => nomatch hnone
  · exact nomatch hc

theorem admits_others_derived :
    (∃ shape t, derivedResult .extension = (.ok shape, t) ∧
      (objectSchema withLoose shape).field? "additionalProperties" ≠ some (.bool false)) ∧
    ∃ shape t, derivedResult .restriction = (.ok shape, t) ∧
      (objectSchema withLoose shape).field? "additionalProperties" = some (.bool false) := by
  constructor
  · obtain ⟨shape, t, h⟩ := exists_of_isOk derivedResult_extension_isOk
    refine ⟨shape, t, h, ((admits_others_iff h fun _ hplace =>
      not_isSimple_derived rfl hplace id).1 rfl).2 (.inl ?_)⟩
    exact ⟨_, .single extendsBase_loose, modelHoldsWildcard_loose⟩
  · obtain ⟨shape, t, h⟩ := exists_of_isOk derivedResult_restriction_isOk
    refine ⟨shape, t, h, by_contra fun hadmits => ?_⟩
    rcases ((admits_others_iff h fun _ hplace =>
      not_isSimple_derived rfl hplace id).1 rfl).1 hadmits with
        ⟨_, hplace, hw⟩ | ⟨_, hplace, hw⟩
    · exact not_modelHoldsWildcard_restriction hplace hw
    · exact not_attributesHoldWildcard_derived rfl hplace hw

end Conversion

end Crosswalk
