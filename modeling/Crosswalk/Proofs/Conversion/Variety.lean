import Crosswalk.Proofs.Conversion.Run
import Crosswalk.Proofs.Linkage.Variety
import Crosswalk.Proofs.Validation.Same

/-!
# The shape of what a type comes down to

A simple type is flattened to a shape that is one of its variety (`Conversion.yields_shapeWith`): a
datatype with the facets of all steps, an array, or the alternatives of a union, among which a text
is accepted if a member takes it. What the shape says about literals follows: its schema accepts the
value that a literal is written as if and only if the type takes it (`Shaped.accepts_iff`).
-/

namespace Crosswalk

open Json Check

variable {Home : Type} {follow : Follow Home} {home : Home} {l : Linkage} {v : Variety}
  {shape : SimpleShape}

/-- The shape is one of the variety. Of a union, that is said of texts only: no other literal is
written in a union. -/
inductive Shaped (follow : Follow Home) (home : Home) (l : Linkage) :
    Variety → SimpleShape → Prop where
  | atomic (datatype : Datatype) (steps : List (List Facet)) :
    Shaped follow home l (.atomic datatype steps) (.atomic datatype (.derive datatype steps))
  | list (item : Json) (facets : FacetSet) : Shaped follow home l .list (.list item facets)
  | union {scope : File} {members : List SimpleBase} {schemas : List Json}
    (h : ∀ text, (∃ schema ∈ schemas, Accepts follow home (.string text) schema) ↔
      ∃ member ∈ members, l.TakesText text scope member) :
    Shaped follow home l (.union scope members) (.union schemas)

theorem find?_withKeyword_of_ne {t : Table String Json} {name other : String}
    (h : other ≠ name) (value : Option Json) :
    Table.find? (Datatype.withKeyword t name value) other = Table.find? t other := by
  cases value with
  | none => rfl
  | some v => exact Table.find?_insert_of_ne _ _ h

/-- The keywords of the schema of a list, apart from its lengths, are two. -/
theorem find?_list (item : Json) (facets : FacetSet) :
    ∃ fields, SimpleShape.schema (.list item facets) = .object fields ∧
      ∀ name, name ∉ ["minItems", "maxItems"] → Table.find? fields name =
        Table.find? [("items", item), ("type", .string "array")] name := by
  refine ⟨_, rfl, fun name hn => ?_⟩
  simp only [List.mem_cons, List.not_mem_nil, or_false, not_or] at hn
  rw [find?_withKeyword_of_ne hn.2, find?_withKeyword_of_ne hn.1, ofList_array]

/-- No text is an array. -/
theorem not_accepts_list {item : Json} {facets : FacetSet} {text : String} :
    ¬ Accepts follow home (.string text) (SimpleShape.schema (.list item facets)) := by
  obtain ⟨fields, hschema, hfind⟩ := find?_list item facets
  rw [hschema]
  intro h
  have hlink : reference? fields = none := by
    rw [reference?, hfind _ (by decide)]
    rfl
  have htype : Table.find? fields "type" = some (.string "array") := hfind _ (by decide)
  obtain ⟨items, hitems⟩ := passes_array_iff.1 (h.passes hlink (Table.mem_of_find? htype))
  cases hitems

/-- Other keywords can be put beside the schema of a shape. -/
theorem isTypeSchema_schema (shape : SimpleShape) : IsTypeSchema shape.schema := by
  cases shape with
  | atomic datatype facets =>
      have hapart : ∀ name ∈ "$ref" :: besideKeywords, name ∉ FacetSet.keywordNames := by decide
      exact .fields fun name hn hbeside => hapart name hbeside
        ((FacetSet.demands_keywords (fun _ => True) facets datatype).keys name hn)
  | list item facets =>
      obtain ⟨fields, hschema, hfind⟩ := find?_list item facets
      rw [hschema]
      refine .fields fun name hn hbeside => Table.find?_eq_none_iff.1 ?_ hn
      have hname : name = "$ref" ∨ name = "const" ∨ name = "default" ∨ name = "description" := by
        simpa [besideKeywords] using hbeside
      rcases hname with rfl | rfl | rfl | rfl <;> exact hfind _ (by decide)
  | union members => exact .fields (by simp [Table.keys, besideKeywords])

theorem isTypeSchema_schemaOf? {name : String} {schema : Json}
    (h : Datatype.schemaOf? name = some schema) : IsTypeSchema schema := by
  unfold Datatype.schemaOf? at h
  split_ifs at h
  · obtain rfl := Option.some.inj h
    exact .fields fun name hn => absurd hn List.not_mem_nil
  · obtain ⟨d, hd, rfl⟩ := Option.map_eq_some_iff.1 h
    rw [← FacetSet.keywords_ofDatatype (List.mem_of_find?_eq_some hd)]
    exact isTypeSchema_schema (.atomic d (.ofDatatype d))

namespace Shaped

variable (h : Shaped follow home l v shape)
include h

theorem space : shape.space = v.space := by cases h <;> rfl

theorem restrict (facets : List Facet) :
    Shaped follow home l (v.restrict facets) (shape.restrict facets).1 := by
  cases h with
  | atomic datatype steps =>
      change Shaped follow home l _
        (.atomic datatype ((FacetSet.derive datatype steps).apply facets datatype.space).1)
      rw [← FacetSet.derive_append]
      exact .atomic datatype _
  | list item inherited => exact .list item _
  | union h => exact .union h

theorem accepts_string_iff (hb : IsBlind follow) {text : String} :
    Accepts follow home (.string text) shape.schema ↔ v.TakesText l text := by
  cases h with
  | atomic datatype steps => exact FacetSet.accepts_string_iff _ text
  | list item facets => exact iff_of_false not_accepts_list id
  | union h => exact hb.accepts_anyOf_iff.trans (h text)

/-- The schema accepts what a literal is written as, and every value that is the same, if and only
if the type takes the literal. -/
theorem accepts_iff (hb : IsBlind follow) {lexical : String} {value : Json}
    (hsame : (v.space.literal lexical).same value = true) :
    Accepts follow home value shape.schema ↔ v.Takes l lexical := by
  have hstring : v.space = .text → value = .string lexical := fun hspace =>
    Json.same_string_iff.1 (by rwa [hspace] at hsame)
  cases h with
  | atomic datatype steps => exact FacetSet.accepts_literal_iff _ hsame
  | list item facets => exact iff_of_false (hstring rfl ▸ not_accepts_list) id
  | union h => exact hstring rfl ▸ (Shaped.union h).accepts_string_iff hb

end Shaped

/-! ### Conversions -/

namespace Conversion

variable {context : Context} {expand : SimpleExpansion} {scope : File}

/-- A link to a named type accepts the texts that the type takes. -/
def LinkTakes (context : Context) (follow : Follow Home) (home : Home)
    (located : Located NamedType) : Prop :=
  ∀ text, Accepts follow home (.string text)
      (linkTo context located.file "definitions" located.declaration.name.name) ↔
    ∃ type, located.declaration.definition = .simple type ∧
      context.linkage.TakesText text located.file (.inline type)

/-- Links to all types that a type offers do. -/
def OffersTake (context : Context) (follow : Follow Home) (home : Home) (scope : File)
    (type : SimpleType) : Prop :=
  ∀ located, context.linkage.Offers scope type located → LinkTakes context follow home located

/-- The shape is one of what the type comes down to. -/
def FitsVariety (context : Context) (follow : Follow Home) (home : Home) (scope : File)
    (type : SimpleType) (shape : SimpleShape) : Prop :=
  ∃ v, context.linkage.HasVariety scope (.inline type) v ∧
    Shaped follow home context.linkage v shape

/-- Named simple types are flattened to shapes of what they come down to. -/
def ExpandsFitting (context : Context) (follow : Follow Home) (home : Home)
    (expand : SimpleExpansion) : Prop :=
  ∀ located type, OffersTake context follow home located.file type →
    Yields (expand located type) (FitsVariety context follow home located.file type)

theorem yields_builtinShape {typeName : String} {name : QName} :
    Yields (builtinShape scope typeName name) fun shape => ∃ datatype,
      Datatype.find? (if name.name = "anyType" then "anySimpleType" else name.name) =
        some datatype ∧ shape = .atomic datatype (.ofDatatype datatype) := by
  unfold builtinShape
  exact (Yields.found fun datatype hd => hd).bind fun datatype hd =>
    Yields.pure ⟨datatype, hd, rfl⟩

theorem yields_namedBase (he : ExpandsFitting context follow home expand) {typeName : String}
    {name : QName} {facets : List Facet}
    (hj : OffersTake context follow home scope (.restriction (.named name) facets)) :
    Yields (namedBase context expand scope typeName name) fun shape => ∃ v,
      context.linkage.HasVariety scope (.inline (.restriction (.named name) facets))
        (v.restrict facets) ∧ Shaped follow home context.linkage v shape := by
  unfold namedBase
  split
  · next hb =>
      refine yields_builtinShape.mono ?_
      rintro _ ⟨datatype, hd, rfl⟩
      refine ⟨_, ?_, .atomic datatype []⟩
      split_ifs at hd with hany
      · exact .anything ((if_pos hb).mpr hany) hd
      · exact .restriction (.builtin hb hd)
  · next hb =>
      have hb : name.isBuiltin = false := Bool.eq_false_iff.2 hb
      refine (Yields.found fun located hl => hl).bind fun located hl => ?_
      split
      · next type ht =>
          refine ((he located type fun inner ho => hj inner (.base hb hl ht ho)).mono ?_).visiting
          rintro shape ⟨v, hv, hs⟩
          exact ⟨v, .restriction (.named hb hl ht hv), hs⟩
      · next type ht =>
          refine Yields.bind_any fun _ => yields_builtinShape.mono ?_
          rintro _ ⟨datatype, hd, rfl⟩
          refine ⟨_, .anything ?_ hd, .atomic datatype []⟩
          rw [Linkage.IsBroad, hb, if_neg Bool.false_ne_true]
          exact ⟨located, type, hl, ht⟩

theorem takesText_builtin_iff {name : QName} (hb : name.isBuiltin = true) {schema : Json}
    (hs : Datatype.schemaOf? name.name = some schema) (text : String) :
    Accepts follow home (.string text) schema ↔ l.TakesText text scope (.named name) := by
  unfold Datatype.schemaOf? at hs
  split_ifs at hs with hany
  · obtain rfl := Option.some.inj hs
    exact iff_of_true (accepts_object rfl (by simp)) (.anything hb hany)
  · obtain ⟨d, hd, rfl⟩ := Option.map_eq_some_iff.1 hs
    rw [(Linkage.HasVariety.builtin hb hd).takesText_iff,
      ← FacetSet.keywords_ofDatatype (List.mem_of_find?_eq_some hd), FacetSet.accepts_string_iff]
    rfl

mutual

/-- By the parts of the type. Its bases are expanded, and its members are linked to. -/
theorem yields_shapeWith (hb : IsBlind follow) (he : ExpandsFitting context follow home expand)
    (scope : File) (typeName : String) (report : Bool) :
    ∀ type : SimpleType, OffersTake context follow home scope type →
      Yields (shapeWith context expand scope typeName report type)
        (FitsVariety context follow home scope type)
  | .restriction base facets, hj => by
      unfold shapeWith
      refine (yields_baseShape hb he scope typeName report base facets hj).bind ?_
      rintro inherited ⟨v, hv, hs⟩
      have fits : FitsVariety context follow home scope (.restriction base facets)
          (inherited.restrict facets).1 := ⟨_, hv, hs.restrict facets⟩
      cases report with
      | true => exact Yields.bind_any fun _ => Yields.pure fits
      | false => exact Yields.pure fits
  | .list item, _ => by
      unfold shapeWith
      exact Yields.bind_any fun schema => Yields.pure ⟨.list, .list, .list schema {}⟩
  | .union members, hj => by
      unfold shapeWith
      exact (yields_memberSchemas hb he scope typeName report members members (fun _ hm => hm)
        hj).bind fun schemas hs => Yields.pure ⟨_, .union, .union hs⟩

theorem yields_baseShape (hb : IsBlind follow) (he : ExpandsFitting context follow home expand)
    (scope : File) (typeName : String) (report : Bool) :
    ∀ (base : SimpleBase) (facets : List Facet),
      OffersTake context follow home scope (.restriction base facets) →
      Yields (baseShape context expand scope typeName report base) fun shape => ∃ v,
        context.linkage.HasVariety scope (.inline (.restriction base facets))
          (v.restrict facets) ∧ Shaped follow home context.linkage v shape
  | .inline type, facets, hj => by
      unfold baseShape
      refine (yields_shapeWith hb he scope typeName report type
        fun located ho => hj located (.within ho)).mono ?_
      rintro shape ⟨v, hv, hs⟩
      exact ⟨v, .restriction hv, hs⟩
  | .named name, facets, hj => by
      unfold baseShape
      exact yields_namedBase he hj

theorem yields_memberSchema (hb : IsBlind follow) (he : ExpandsFitting context follow home expand)
    (scope : File) (typeName : String) (report : Bool) (all : List SimpleBase) :
    ∀ member : SimpleBase, member ∈ all → OffersTake context follow home scope (.union all) →
      Yields (baseSchemaWith context expand scope typeName report member) fun schema => ∀ text,
        Accepts follow home (.string text) schema ↔
          context.linkage.TakesText text scope member
  | .named name, hm, hj => by
      unfold baseSchemaWith typeReference
      split
      · next hbuiltin => exact Yields.found fun schema hs => takesText_builtin_iff hbuiltin hs
      · next hbuiltin =>
          have hbuiltin : name.isBuiltin = false := Bool.eq_false_iff.2 hbuiltin
          refine (Yields.found fun located hl => hl).bind fun located hl => Yields.pure ?_
          intro text
          rw [Linkage.takesText_named_iff hbuiltin hl]
          exact hj located (.named hm hbuiltin hl) text
  | .inline type, hm, hj => by
      unfold baseSchemaWith
      refine (yields_shapeWith hb he scope typeName report type
        fun located ho => hj located (.inline hm ho)).bind ?_
      rintro shape ⟨v, hv, hs⟩
      exact Yields.pure fun text => (hs.accepts_string_iff hb).trans hv.takesText_iff.symm

theorem yields_memberSchemas (hb : IsBlind follow)
    (he : ExpandsFitting context follow home expand) (scope : File) (typeName : String)
    (report : Bool) (all : List SimpleBase) :
    ∀ members : List SimpleBase, (∀ member ∈ members, member ∈ all) →
      OffersTake context follow home scope (.union all) →
      Yields (memberSchemas context expand scope typeName report members) fun schemas => ∀ text,
        (∃ schema ∈ schemas, Accepts follow home (.string text) schema) ↔
          ∃ member ∈ members, context.linkage.TakesText text scope member
  | [], _, _ => by
      unfold memberSchemas
      exact Yields.pure fun text => by simp
  | member :: rest, hsub, hj => by
      unfold memberSchemas
      rw [List.forall_mem_cons] at hsub
      refine (yields_memberSchema hb he scope typeName report all member hsub.1 hj).bind
        fun schema hs => (yields_memberSchemas hb he scope typeName report all rest hsub.2
          hj).bind fun schemas hrest => Yields.pure fun text => ?_
      rw [List.exists_mem_cons_iff, List.exists_mem_cons_iff, hs text, hrest text]

end

theorem expandsFitting_expandSimple (hb : IsBlind follow) : ∀ depth : Nat,
    ExpandsFitting context follow home (expandSimple context depth)
  | 0, _, _, _ => Yields.throw
  | depth + 1, located, type, hj =>
    yields_shapeWith hb (expandsFitting_expandSimple hb depth) located.file _ false type hj

/-- A simple type is flattened to a shape of what it comes down to. -/
theorem yields_simpleShape (hb : IsBlind follow) (typeName : String) (report : Bool)
    {type : SimpleType} (hj : OffersTake context follow home scope type) :
    Yields (simpleShape context scope typeName report type)
      (FitsVariety context follow home scope type) :=
  yields_shapeWith hb (expandsFitting_expandSimple hb _) scope typeName report type hj

end Conversion

end Crosswalk
