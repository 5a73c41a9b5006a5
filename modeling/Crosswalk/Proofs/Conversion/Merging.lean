import Crosswalk.Proofs.Content.Rendering
import Crosswalk.Proofs.Conversion.Variety
import Crosswalk.Proofs.Inlining.Simple
import Crosswalk.Validation.SchemaSet

/-!
# Keywords that are merged

A schema is written as one object where two could have been conjoined: the keywords of a declaration
stand beside those of its type, and those of a single constraint beside those of an object. That is
the same because the producers of schemas use different keywords: no type has a description, a
constant or a default of its own, and no object has alternatives before its constraint is merged. A
reference would hide what stands beside it, and is wrapped first. So nothing is replaced in a merge,
and what is accepted afterwards is what both parts accept.
-/

namespace Crosswalk

open Json Check Conversion

namespace Json

/-- Each of the keywords stands in the schema as it was given: none has been replaced. -/
def Keeps (schema : Json) (keywords : List (String × Json)) : Prop :=
  ∀ keyword ∈ keywords, schema.field? keyword.1 = some keyword.2

end Json

namespace Conversion

variable {context : Context} {Home : Type} {follow : Follow Home} {home : Home}

/-! ### What is merged -/

/-- The shapes that are written as objects: those of complex types, and of model groups that are
referred to. -/
inductive IsCollected (context : Context) : Shape → Prop
  | complex {depth : Nat} {site : Site} {type : ComplexType} {s t : ConversionState} {shape : Shape}
    (h : run (collectComplex context (expansions context depth) site .everything {} type) s =
      (.ok shape, t)) : IsCollected context shape
  | group {depth : Nat} {site : Site} {group : ModelGroup} {s t : ConversionState} {shape : Shape}
    (h : run (collectGroup context (expansions context depth) site .once true {} group) s =
      (.ok shape, t)) : IsCollected context shape

theorem IsCollected.isMade {shape : Shape} (h : IsCollected context shape) : shape.IsMade := by
  cases h with
  | complex h => exact yields_isMade _ _ _ _ _ _ h
  | @group depth site group s t shape h =>
      have hadmits := isKept_madeStandard.collectGroup
        (isKept_madeStandard.expands_expansions depth) site .once .empty group
        (knows_madeStandard _) s t shape h
      exact ⟨hadmits.nodup, hadmits.choices, fun reference hr => (hadmits.groups reference hr).2⟩

/-- The schemas that types and model groups are converted to. -/
inductive IsMadeOfType (context : Context) : Json → Prop
  | reference {scope : File} {name : QName} {referencing : String} {s t : ConversionState}
    {schema : Json} (h : run (typeReference context scope name referencing) s = (.ok schema, t)) :
    IsMadeOfType context schema
  | simple {scope : File} {typeName : String} {report : Bool} {type : SimpleType}
    {s t : ConversionState} {schema : Json}
    (h : run (simpleSchema context scope typeName report type) s = (.ok schema, t)) :
    IsMadeOfType context schema
  | object {shape : Shape} (h : IsCollected context shape) (closed : Bool) :
    IsMadeOfType context (shape.schema closed context.options.textProperty)
  | datatype {name : String} {schema : Json} (h : Datatype.schemaOf? name = some schema) :
    IsMadeOfType context schema
  | anything : IsMadeOfType context (.object [])

theorem isTypeSchema_linkTo (context : Context) (target : File) (sectionName name : String) :
    IsTypeSchema (linkTo context target sectionName name) := .link _

theorem IsMadeOfType.isTypeSchema {schema : Json} (h : IsMadeOfType context schema) :
    IsTypeSchema schema := by
  cases h with
  | @reference scope name referencing s t schema h =>
      have hyields : Yields (typeReference context scope name referencing) IsTypeSchema := by
        unfold typeReference
        split
        · exact Yields.found fun _ hs => isTypeSchema_schemaOf? hs
        · exact Yields.bind_any fun located => Yields.pure (isTypeSchema_linkTo _ _ _ _)
      exact hyields s t schema h
  | @simple scope typeName report type s t schema h =>
      have hyields : Yields (simpleSchema context scope typeName report type) IsTypeSchema :=
        Yields.bind_any fun shape => Yields.pure (isTypeSchema_schema shape)
      exact hyields s t schema h
  | object h closed => exact h.isMade.isTypeSchema closed _
  | datatype h => exact isTypeSchema_schemaOf? h
  | anything => exact .fields fun _ h => absurd h List.not_mem_nil

/-- What a declaration puts beside the schema of its type: its documentation, and its literals in
the space of the type. -/
def remarks (documentation fixed default : Option String) (space : ValueSpace) :
    List (String × Json) :=
  descriptionOf documentation ++ (fixed.toList.map fun text => ("const", space.literal text)) ++
    (default.toList.map fun text => ("default", space.literal text))

/-- A schema that is made of the schema of a type and remarks. -/
def IsMerged (context : Context) (schema : Json) : Prop :=
  ∃ own documentation fixed default space, IsMadeOfType context own ∧
    schema = withKeywords own (remarks documentation fixed default space)

theorem yields_elementTypeSchema_isMadeOfType (depth : Nat) (site : Site) (elementName : String)
    (type : ElementType) :
    Yields (elementTypeSchema context (expansions context depth) site elementName type)
      (IsMadeOfType context) := by
  cases type with
  | named name =>
      unfold elementTypeSchema
      exact fun _ _ _ h => .reference h
  | simple type =>
      unfold elementTypeSchema
      exact fun _ _ _ h => .simple h
  | complex type =>
      have hshape : Yields (collectComplex context (expansions context depth) site .everything {}
          type) (IsCollected context) := fun _ _ _ h => .complex h
      unfold elementTypeSchema
      exact hshape.bind fun _ hs => Yields.pure (.object hs _)
  | any =>
      unfold elementTypeSchema
      exact Yields.pure .anything

theorem isMerged_description {own : Json} (h : IsMadeOfType context own)
    (documentation : Option String) :
    IsMerged context (withKeywords own (descriptionOf documentation)) :=
  ⟨own, documentation, none, none, .text, h, by simp [remarks]⟩

/-- An element is described by a merged schema, or by one that admits its absence as well. -/
theorem yields_elementSchema_isMerged (depth : Nat) (site : Site) (declaration : Element) :
    Yields (elementSchema context (expansions context depth) site declaration) fun schema =>
      ∃ merged, IsMerged context merged ∧
        schema = if declaration.nillable then orNull merged else merged := by
  obtain ⟨name, qualified, type, nillable, default, fixed, documentation⟩ := declaration
  unfold elementSchema
  refine (yields_elementTypeSchema_isMadeOfType depth site name.name type).bind fun own ho => ?_
  have hextras : Yields (elementKeywords context site type default fixed documentation)
      fun extras => IsMerged context (withKeywords own extras) := by
    unfold elementKeywords
    split
    · exact Yields.pure (isMerged_description ho documentation)
    · refine Yields.bind_any fun space? => ?_
      split
      · next space => exact Yields.pure ⟨own, documentation, fixed, default, space, ho, rfl⟩
      · exact Yields.bind_any fun _ => Yields.pure (isMerged_description ho documentation)
  exact hextras.bind fun extras hm => Yields.pure ⟨_, hm, rfl⟩

theorem yields_attributeSchema_isMerged (scope : File) (declaration : Attribute)
    (default fixed : Option String) :
    Yields (attributeSchema context scope declaration default fixed) (IsMerged context) := by
  obtain ⟨name, qualified, type, default', fixed', documentation⟩ := declaration
  have finish : ∀ own, IsMadeOfType context own → ∀ space : Option ValueSpace,
      IsMerged context (withKeywords own (remarks documentation (fixed.or fixed')
        (default.or default') (space.getD .text))) :=
    fun own ho space => ⟨own, documentation, _, _, _, ho, rfl⟩
  unfold attributeSchema
  rcases type with _ | base
  · obtain ⟨schema, hs⟩ := Option.isSome_iff_exists.1
      (show (Datatype.schemaOf? "anySimpleType").isSome = true by decide)
    rw [hs]
    exact (Yields.pure (.datatype hs)).bind fun own ho =>
      Yields.bind_any fun space => Yields.pure (finish own ho space)
  · have hbase : Yields (baseSchema context scope name.name base) (IsMadeOfType context) := by
      cases base with
      | named name => exact fun _ _ _ h => .reference h
      | inline type => exact fun _ _ _ h => .simple h
    cases base <;> exact hbase.bind fun own ho =>
      Yields.bind_any fun space => Yields.pure (finish own ho space)

theorem yields_typeDefinition_isMerged (type : NamedType) :
    Yields (typeDefinition context type) fun entry => IsMerged context entry.2 := by
  unfold typeDefinition
  rcases type.definition with simple | complex
  · have hschema : Yields (visiting .simple context.file type.name
        (simpleSchema context context.file type.name.name true simple)) (IsMadeOfType context) :=
      Yields.visiting fun _ _ _ h => .simple h
    exact hschema.bind fun own ho => Yields.pure (isMerged_description ho _)
  · have hshape : Yields (collectComplex context (allExpansions context)
        ⟨context.file, "complexType " ++ type.name.name⟩ .everything {} complex)
        (IsCollected context) := fun _ _ _ h => .complex h
    have hschema := hshape.bind fun shape hs => Yields.pure
      (IsMadeOfType.object hs context.options.isClosed)
    exact hschema.visiting.bind fun own ho => Yields.pure (isMerged_description ho _)

theorem yields_groupDefinition_isMerged (group : NamedGroup) :
    Yields (groupDefinition context group) fun entry => IsMerged context entry.2 := by
  have hshape : Yields (collectGroup context (allExpansions context)
      ⟨context.file, "group " ++ group.name.name⟩ .once true {} group.group)
      (IsCollected context) := fun _ _ _ h => .group h
  unfold groupDefinition
  exact hshape.visiting.bind fun _ hs => Yields.pure (isMerged_description (.object hs _) _)

/-! ### Keywords beside a type -/

theorem areBeside_remarks (documentation fixed default : Option String) (space : ValueSpace) :
    AreBeside (remarks documentation fixed default space) := areBeside_append space

end Conversion

namespace Check

variable {Home : Type} {follow : Follow Home} {home : Home} {value : Json}

/-- Keywords beside a type make a schema of their own. -/
theorem accepts_ofFields_iff {extras : List (String × Json)}
    (he : AreBeside extras) : Accepts follow home value (.ofFields extras) ↔
      ∀ e ∈ extras, complaints e.1 e.2 value = [] := by
  have hlink : "$ref" ∉ Table.keys (Table.ofList extras) := fun hn => by
    obtain ⟨e, hm, heq⟩ := List.mem_map.1 (Table.mem_keys_ofList.1 hn)
    exact (ne_of_beside (he.names e hm)).1 heq
  have hmem : ∀ e, e ∈ Table.ofList extras ↔ e ∈ extras :=
    fun e => ⟨Table.mem_ofList, Table.mem_ofList_of_mem he.nodup⟩
  rw [Json.ofFields, accepts_object_iff (reference?_of_notMem hlink)]
  simp only [hmem]
  exact forall₂_congr fun e hm => Complains.passes_iff (complains_of_beside (he.names e hm))

end Check

namespace Conversion

variable {context : Context} {Home : Type} {follow : Follow Home} {home : Home}

theorem keeps_withKeywords {own : Json} (extras : List (String × Json)) (he : AreBeside extras) :
    (withKeywords own extras).Keeps extras := by
  intro e hm
  have hne : extras.isEmpty = false := by
    rw [List.isEmpty_eq_false_iff]
    exact List.ne_nil_of_mem hm
  unfold withKeywords
  rw [if_neg (by simp [hne])]
  exact Table.find?_foldl_insert_of_mem he.nodup hm _

theorem field?_withKeywords {own : Json} (ho : IsTypeSchema own) {extras : List (String × Json)}
    (he : AreBeside extras) {name : String} {value : Json} (hlink : own.field? "$ref" = none)
    (h : own.field? name = some value) :
    (withKeywords own extras).field? name = some value := by
  unfold withKeywords
  split
  · exact h
  · cases ho with
    | link link => exact absurd hlink (Option.some_ne_none _)
    | fields hkeys =>
        have hn : name ∉ extras.map (·.1) := fun hn => by
          obtain ⟨e, hm, rfl⟩ := List.mem_map.1 hn
          refine hkeys _ ?_ (List.mem_cons_of_mem _ (he.names e hm))
          rw [← Table.contains_iff, Table.contains]
          exact Option.isSome_of_eq_some h
        have hcontains := contains_link_of_notMem fun hm => hkeys "$ref" hm List.mem_cons_self
        simp only [hcontains, Bool.false_eq_true, if_false]
        exact (Table.find?_foldl_insert_of_notMem hn _).trans h

end Conversion

/-! ### Facets -/

namespace FacetSet

theorem sorted_withKeyword {t : Table String Json} (h : Table.Sorted t) (name : String)
    (value : Option Json) : Table.Sorted (Datatype.withKeyword t name value) := by
  cases value with
  | none => exact h
  | some v => exact h.insert name v

theorem sorted_withPatterns {t : Table String Json} (h : Table.Sorted t) (patterns : List String) :
    Table.Sorted (withPatterns t patterns) := by
  match patterns with
  | [] => exact h
  | [p] => exact h.insert _ _
  | p :: q :: rest => exact (h.insert _ _).insert _ _

theorem sorted_withBound {t : Table String Json} (h : Table.Sorted t) (names : String × String)
    (bound : Option Bound) : Table.Sorted (withBound t names bound) := by
  cases bound with
  | none => exact h
  | some b => exact sorted_withKeyword h _ _

theorem sorted_keywords (s : FacetSet) (d : Datatype) : Table.Sorted (s.keywords d) := by
  have hdatatype : Table.Sorted d.keywords :=
    sorted_withKeyword (sorted_withKeyword (Table.sorted_nil.insert _ _) _ _) _ _
  have hstrings := sorted_withKeyword (sorted_withPatterns
    (sorted_withKeyword (sorted_withKeyword hdatatype "minLength" (s.minLength.map .nat))
      "maxLength" (s.maxLength.map .nat)) s.patterns) "enum"
    (s.enumeration.map fun values => .array (values.map d.space.literal))
  have hrange := sorted_withBound (sorted_withBound hstrings ("minimum", "exclusiveMinimum")
    (s.effectiveLower d.space)) ("maximum", "exclusiveMaximum") (s.effectiveUpper d.space)
  unfold keywords
  dsimp only
  split
  · exact hrange.insert _ _
  · exact hrange

/-- Each keyword of a facet in effect stands among the keywords: none has been replaced. -/
theorem keywordsSatisfy_find? (s : FacetSet) (d : Datatype) :
    s.KeywordsSatisfy (fun keyword => Table.find? (s.keywords d) keyword.1 = some keyword.2) d :=
  (forall_mem_keywords_iff _ s d).1 fun _ hm => Table.find?_of_mem (sorted_keywords s d).nodup hm

end FacetSet

namespace Shape

variable {Home : Type} {follow : Follow Home} {home : Home} {s : Shape}

/-- The schema of an object with all constraints in a conjunction. -/
def conjoined (s : Shape) (closed : Bool) (textProperty : String) : Json :=
  .ofFields (({ s with choices := [], groups := [] } : Shape).keywords closed textProperty ++
    [("allOf", .array (s.choices ++ s.groups))])

/-- An object without the constraints of a shape. -/
theorem IsMade.bare (h : s.IsMade) : ({ s with choices := [], groups := [] } : Shape).IsMade :=
  ⟨h.nodup, nofun, nofun⟩

theorem IsMade.accepts_schema_iff_bare (h : s.IsMade) (hb : IsBlind follow) {closed : Bool}
    {textProperty : String} {value : Json} :
    Accepts follow home value (s.schema closed textProperty) ↔
      (∀ constraint ∈ s.choices ++ s.groups, Accepts follow home value constraint) ∧
        Accepts follow home value
          (({ s with choices := [], groups := [] } : Shape).schema closed textProperty) := by
  rw [h.accepts_schema_iff hb, h.bare.accepts_schema_iff hb]
  constructor
  · rintro ⟨entries, rfl, ha⟩
    exact ⟨ha.constraints, entries, rfl, ha.properties, ha.required, ha.declared, nofun⟩
  · rintro ⟨hc, entries, rfl, ha⟩
    exact ⟨entries, rfl, ha.properties, ha.required, ha.declared, hc⟩

theorem IsMade.accepts_conjoined_iff (h : s.IsMade) (hb : IsBlind follow) {closed : Bool}
    {textProperty : String} {value : Json} :
    Accepts follow home value (s.conjoined closed textProperty) ↔
      Accepts follow home value (s.schema closed textProperty) := by
  have hkeys := h.bare.keys closed textProperty
  have hall : "allOf" ∉ Table.keys (Table.ofList
      (({ s with choices := [], groups := [] } : Shape).keywords closed textProperty)) := by
    rw [Table.mem_keys_ofList]
    unfold keywords constraints
    dsimp only
    split_ifs <;> simp
  rw [conjoined, ofFields, Table.ofList_append_singleton,
    hb.accepts_insert_iff (reference?_of_notMem (h.bare.reference_notMem closed textProperty)) hall
      (by simp) (by simp), passes_allOf_iff hb, h.accepts_schema_iff_bare hb, schema_eq]

theorem IsMade.keeps_schema (h : s.IsMade) (closed : Bool) (textProperty : String) :
    (s.schema closed textProperty).Keeps (s.keywords closed textProperty) :=
  fun _ hm => h.find?_keywords hm

end Shape

/-- References into a set of documents are judged the same wherever the check stands. -/
theorem SchemaSet.isBlind_following (set : SchemaSet) (root : Home) :
    ∀ steps : Nat, IsBlind (set.following root steps)
  | 0 => fun _ _ _ _ _ _ => rfl
  | steps + 1 => fun home link value p q h => by
      simp only [following] at h ⊢
      split at h
      · exact ((isBlind_following set root steps).check_alike (alike_refl _) q p).2 h
      · rfl

namespace Conversion

variable {Home : Type} {follow : Follow Home}

/-- Merging keywords is conjoining schemas. Attributes, elements, types and groups are described by
the schema of a type with remarks beside it, which accepts what both accept; an object accepts what
it accepts with its constraints in a conjunction; and neither there nor among facets is a keyword
replaced. -/
theorem merging_conjoins (hb : IsBlind follow) (home : Home) (context : Context) :
    ((∀ scope declaration default fixed,
        Yields (attributeSchema context scope declaration default fixed) (IsMerged context)) ∧
      (∀ depth site declaration,
        Yields (elementSchema context (expansions context depth) site declaration) fun schema =>
          ∃ merged, IsMerged context merged ∧
            schema = if declaration.nillable then orNull merged else merged) ∧
      (∀ type, Yields (typeDefinition context type) fun entry => IsMerged context entry.2) ∧
      ∀ group, Yields (groupDefinition context group) fun entry => IsMerged context entry.2) ∧
    (∀ own, IsMadeOfType context own → ∀ documentation fixed default space,
      let extras := remarks documentation fixed default space
      (∀ value, Accepts follow home value (withKeywords own extras) ↔
        Accepts follow home value own ∧ Accepts follow home value (.ofFields extras)) ∧
      (withKeywords own extras).Keeps extras ∧
      ∀ name value, own.field? "$ref" = none → own.field? name = some value →
        (withKeywords own extras).field? name = some value) ∧
    (∀ shape, IsCollected context shape → ∀ closed textProperty,
      (∀ value, Accepts follow home value (shape.schema closed textProperty) ↔
        Accepts follow home value (shape.conjoined closed textProperty)) ∧
      (shape.schema closed textProperty).Keeps (shape.keywords closed textProperty)) ∧
    ∀ (facets : FacetSet) (datatype : Datatype), facets.KeywordsSatisfy (fun keyword =>
      Table.find? (facets.keywords datatype) keyword.1 = some keyword.2) datatype := by
  refine ⟨⟨yields_attributeSchema_isMerged, yields_elementSchema_isMerged,
    yields_typeDefinition_isMerged, yields_groupDefinition_isMerged⟩,
    fun own ho documentation fixed default space => ?_, fun shape hs closed textProperty => ?_,
    FacetSet.keywordsSatisfy_find?⟩
  · have he := areBeside_remarks documentation fixed default space
    refine ⟨fun value => ?_, keeps_withKeywords _ he, fun name value =>
      field?_withKeywords ho.isTypeSchema he⟩
    rw [hb.accepts_withKeywords_iff ho.isTypeSchema he, accepts_ofFields_iff he]
  · exact ⟨fun value => (hs.isMade.accepts_conjoined_iff hb).symm,
      hs.isMade.keeps_schema closed textProperty⟩

/-- A set with one document, and a string that has to be "a". -/
theorem accepts_string_with_const :
    Accepts (SchemaSet.following {} ⟨"", .object []⟩ 1) ⟨"", .object []⟩ (.string "a")
      (withKeywords (.object [("type", .string "string")])
        (remarks (some "A letter.") (some "a") none .text)) ∧
    ¬ Accepts (SchemaSet.following {} ⟨"", .object []⟩ 1) ⟨"", .object []⟩ (.string "b")
      (withKeywords (.object [("type", .string "string")])
        (remarks (some "A letter.") (some "a") none .text)) := by
  have hb := SchemaSet.isBlind_following {} ⟨"", .object []⟩ 1
  have ho : IsMadeOfType bare (.object [("type", .string "string")]) :=
    .datatype (show Datatype.schemaOf? "string" = _ by rfl)
  have hiff := ((merging_conjoins hb ⟨"", .object []⟩ bare).2.1 _ ho (some "A letter.")
    (some "a") none .text).1
  rw [hiff, hiff, hb.accepts_iff {}, hb.accepts_iff {}, hb.accepts_iff {}, hb.accepts_iff {}]
  constructor
  · constructor <;> rfl
  · intro h
    exact List.cons_ne_nil _ _ h.2

end Conversion

end Crosswalk
