import Crosswalk.Proofs.Conversion.File
import Crosswalk.Proofs.Json.InPlace
import Crosswalk.Proofs.Linkage.Offer

/-!
# The links of declarations for the same value

Under the definition of a declaration there are many links, but only few that a check follows before
it comes to another value. The definition of a simple type has those to the types that it offers,
and the definition of a complex type those to groups that are reused. The definition of such a group
has none at all. The property of an element has the links that its type has, or one to its type.

The schema of a simple type does have a link, for the same value, to every type that it offers: a
restriction of a union keeps the members, and a member without name is written out in its place.
-/

namespace Crosswalk

/-! ### Links to what unions offer -/

open Json

namespace Conversion

variable {context : Context} {expand : SimpleExpansion} {scope : File} {type : SimpleType}
  {located : Located NamedType} {link : String}

/-- The shape is that of a union, and one of its members has the link for the same value. -/
def MemberRefers (link : String) (shape : SimpleShape) : Prop :=
  ∃ members, shape = .union members ∧ ∃ member ∈ members, RefersInPlace member link

theorem MemberRefers.restrict {shape : SimpleShape} (h : MemberRefers link shape)
    (facets : List Facet) : MemberRefers link (shape.restrict facets).1 := by
  obtain ⟨members, rfl, hm⟩ := h
  exact ⟨members, rfl, hm⟩

theorem refersInPlace_anyOf {fields : List (String × Json)} {members : List Json} {member : Json}
    (hf : ("anyOf", .array members) ∈ fields) (hm : member ∈ members)
    (h : RefersInPlace member link) : RefersInPlace (.object fields) link :=
  .part (.listed (by decide) hf hm) h

theorem MemberRefers.schema {shape : SimpleShape} (h : MemberRefers link shape) :
    RefersInPlace shape.schema link := by
  obtain ⟨members, rfl, member, hm, h⟩ := h
  exact refersInPlace_anyOf List.mem_cons_self hm h

/-- A description beside the members of a union does not hide them. -/
theorem MemberRefers.described {shape : SimpleShape} (h : MemberRefers link shape)
    (documentation : Option String) :
    RefersInPlace (withKeywords shape.schema (descriptionOf documentation)) link := by
  cases documentation with
  | none => exact h.schema
  | some text =>
      obtain ⟨members, rfl, member, hm, h⟩ := h
      have hfind : Table.find? (Table.insert [("anyOf", Json.array members)] "description"
          (.string text)) "anyOf" = some (.array members) :=
        Table.find?_insert_of_ne _ _ (by decide)
      exact refersInPlace_anyOf (Table.mem_of_find? hfind) hm h

/-- Named simple types are flattened to schemas with links to what they offer. -/
def ExpandsOffers (context : Context) (expand : SimpleExpansion) : Prop :=
  ∀ {found : Located NamedType} {type : SimpleType} {located : Located NamedType},
    context.linkage.Offers found.file type located →
      Yields (expand found type) (MemberRefers (typeLink context located))

theorem refers_memberSchemas {typeName : String} {report : Bool} {members : List SimpleBase}
    {member : SimpleBase} (hm : member ∈ members)
    (h : Yields (baseSchemaWith context expand scope typeName report member)
      fun schema => RefersInPlace schema link) :
    Yields (memberSchemas context expand scope typeName report members)
      fun schemas => ∃ schema ∈ schemas, RefersInPlace schema link := by
  induction members with
  | nil => exact absurd hm List.not_mem_nil
  | cons first rest ih =>
      unfold memberSchemas
      rcases List.mem_cons.1 hm with rfl | hm
      · exact h.bind fun schema hs => Yields.bind_any fun _ =>
          Yields.pure ⟨schema, List.mem_cons_self, hs⟩
      · refine Yields.bind_any fun _ => (ih hm).bind fun schemas hs => Yields.pure ?_
        obtain ⟨schema, hs, hl⟩ := hs
        exact ⟨schema, List.mem_cons_of_mem _ hs, hl⟩

theorem refers_union {typeName : String} {report : Bool} {members : List SimpleBase}
    {member : SimpleBase} (hm : member ∈ members)
    (h : Yields (baseSchemaWith context expand scope typeName report member)
      fun schema => RefersInPlace schema link) :
    Yields (shapeWith context expand scope typeName report (.union members))
      (MemberRefers link) := by
  unfold shapeWith
  exact (refers_memberSchemas hm h).bind fun schemas hs => Yields.pure ⟨schemas, rfl, hs⟩

theorem refers_restriction {typeName : String} {report : Bool} {base : SimpleBase}
    {facets : List Facet}
    (h : Yields (baseShape context expand scope typeName report base) (MemberRefers link)) :
    Yields (shapeWith context expand scope typeName report (.restriction base facets))
      (MemberRefers link) := by
  unfold shapeWith
  refine h.bind fun shape hs => ?_
  cases report with
  | true => exact Yields.bind_any fun _ => Yields.pure (hs.restrict facets)
  | false => exact Yields.pure (hs.restrict facets)

theorem refers_typeReference {name : QName} (hb : name.isBuiltin = false)
    (hl : context.linkage.type? scope name = some located) (referencing : String) :
    Yields (typeReference context scope name referencing)
      fun schema => RefersInPlace schema (typeLink context located) := by
  unfold typeReference
  rw [hb, hl]
  refine (Yields.found (P := (· = located)) fun _ h => (Option.some.inj h).symm).bind ?_
  rintro _ rfl
  exact Yields.pure (.own (.own List.mem_cons_self))

/-- By the way in which the type is offered. -/
theorem refers_shapeWith (he : ExpandsOffers context expand) {typeName : String} {report : Bool}
    (h : context.linkage.Offers scope type located) :
    Yields (shapeWith context expand scope typeName report type)
      (MemberRefers (typeLink context located)) := by
  induction h with
  | named hm hb hl =>
      refine refers_union hm ?_
      unfold baseSchemaWith
      exact refers_typeReference hb hl _
  | inline hm _ ih =>
      refine refers_union hm ?_
      unfold baseSchemaWith
      exact ih.bind fun shape hs => Yields.pure hs.schema
  | within _ ih =>
      refine refers_restriction ?_
      unfold baseShape
      exact ih
  | @base scope name facets found type located hb hl htype ho =>
      refine refers_restriction ?_
      unfold baseShape namedBase
      rw [hb, hl]
      refine (Yields.found (P := (· = found)) fun _ h => (Option.some.inj h).symm).bind ?_
      rintro _ rfl
      rw [htype]
      exact (he ho).visiting

theorem expandsOffers_expandSimple (context : Context) : ∀ depth : Nat,
    ExpandsOffers context (expandSimple context depth)
  | 0, _, _, _, _ => Yields.throw
  | depth + 1, _, _, _, h => refers_shapeWith (expandsOffers_expandSimple context depth) h

/-- The definition of a simple type has links to all types that it offers. -/
theorem refers_simpleDefinition {t : NamedType} (ht : t.definition = .simple type)
    (h : context.linkage.Offers context.file type located) :
    Yields (typeDefinition context t) fun entry =>
      RefersInPlace entry.2 (typeLink context located) := by
  unfold typeDefinition simpleSchema
  rw [ht]
  have shaped : Yields (simpleShape context context.file t.name.name true type)
      (MemberRefers (typeLink context located)) :=
    refers_shapeWith (expandsOffers_expandSimple context _) h
  refine Yields.bind (P := fun schema => ∃ shape, schema = SimpleShape.schema shape ∧
    MemberRefers (typeLink context located) shape) (Yields.visiting ?_) ?_
  · exact shaped.bind fun shape hs => Yields.pure ⟨shape, rfl, hs⟩
  · rintro _ ⟨shape, rfl, hs⟩
    exact Yields.pure (hs.described _)

end Conversion

variable {P G : String → Prop}

namespace Conversion

variable {context : Context}

/-! ### Keywords beside a schema -/

theorem IsRemark.inPlace {member : String × Json} (h : IsRemark member) :
    MemberInPlace P member := by
  cases h <;> exact .of_plain _ (by decide)

theorem inPlace_descriptionOf (documentation : Option String) :
    MembersInPlace P (descriptionOf documentation) := fun member hm =>
  (isRemark_descriptionOf documentation member hm).inPlace

theorem inPlace_withKeywords {schema : Json} (h : LinksInPlace P schema)
    {extras : Table String Json} (he : MembersInPlace P extras) :
    LinksInPlace P (withKeywords schema extras) := by
  have hall : MembersInPlace P [("allOf", .array [schema])] :=
    .singleton (.of_list (by decide) (List.forall_mem_singleton.2 h))
  unfold withKeywords
  split
  · exact h
  · refine linksInPlace_object.2 (List.foldlRecOn extras _ ?_ fun fields hf member hm =>
      MembersInPlace.insert hf (he member hm))
    split
    · split
      · exact hall
      · exact linksInPlace_object.1 h
    · exact hall

theorem inPlace_orNull {schema : Json} (h : LinksInPlace P schema) :
    LinksInPlace P (orNull schema) := by
  have absent : LinksInPlace P (.object [("type", .string "null")]) :=
    linksInPlace_object.2 (MembersInPlace.singleton (.of_plain _ (by decide)))
  exact linksInPlace_list (by decide)
    (List.forall_mem_cons.2 ⟨h, List.forall_mem_singleton.2 absent⟩)

theorem inPlace_elementKeywords (site : Site) (type : ElementType)
    (default fixed documentation : Option String) :
    Yields (elementKeywords context site type default fixed documentation)
      (MembersInPlace P) :=
  (yields_elementKeywords context site type default fixed documentation).mono
    fun _ h member hm => (h member hm).inPlace

/-! ### Objects -/

/-- The links of an object for the same value are those to groups. -/
theorem ShapeLinks.inPlace {shape : Shape} (h : ShapeLinks P G shape) (closed : Bool)
    (textProperty : String) : LinksInPlace G (shape.schema closed textProperty) := by
  have hall : ∀ schema ∈ shape.choices ++ shape.groups, LinksInPlace G schema := by
    intro schema hs
    rcases List.mem_append.1 hs with hs | hs
    · exact ((h.choices schema hs).mono fun _ => False.elim).links.inPlace
    · obtain ⟨link, rfl, hl⟩ := h.groups schema hs
      exact linksInPlace_link hl
  have constraints : MembersInPlace G shape.constraints := by
    have listed : MembersInPlace G [("allOf", .array (shape.choices ++ shape.groups))] :=
      .singleton (.of_list (by decide) hall)
    unfold Shape.constraints
    split
    · exact .nil
    · next fields heq =>
        rw [heq] at hall listed
        split
        · exact listed
        · exact linksInPlace_object.1 (hall _ List.mem_cons_self)
    · exact listed
  refine MembersInPlace.ofFields (.append (.append (.append (.append ?_ ?_) ?_) ?_) constraints)
  · exact .singleton (.of_plain _ (by decide))
  · split
    · exact .nil
    · exact .singleton (.of_plain _ (by decide))
  · split
    · exact .nil
    · exact .singleton (.of_plain _ (by decide))
  · split
    · exact .singleton (.of_plain _ (by decide))
    · exact .nil

/-! ### Simple types -/

/-- The links of the members of a union for the same value satisfy the property. -/
def SimpleInPlace (P : String → Prop) : SimpleShape → Prop
  | .atomic _ _ => True
  | .list _ _ => True
  | .union members => ∀ member ∈ members, LinksInPlace P member

theorem SimpleInPlace.restrict {shape : SimpleShape} (h : SimpleInPlace P shape)
    (facets : List Facet) : SimpleInPlace P (shape.restrict facets).1 := by
  cases shape with
  | atomic datatype inherited => exact True.intro
  | list item inherited => exact True.intro
  | union members => exact h

theorem SimpleInPlace.schema {shape : SimpleShape} (h : SimpleInPlace P shape) :
    LinksInPlace P shape.schema := by
  cases shape with
  | atomic datatype facets =>
      have hf : LinksSatisfy P (.object (facets.keywords datatype)) :=
        linksSatisfy_object.2 (facets.membersAre_keywords datatype)
      exact hf.inPlace
  | list item facets =>
      have array : MembersInPlace P
          (Table.ofList [("type", Json.string "array"), ("items", item)]) := fun member hm =>
        (MembersInPlace.append (.singleton (.of_plain (.string "array") (by decide)))
          (.singleton (.of_plain item (by decide)))) member (Table.mem_ofList hm)
      exact linksInPlace_object.2
        ((array.withKeyword (by decide) _).withKeyword (by decide) _)
  | union members => exact linksInPlace_list (by decide) h

/-- The links to the types that a simple type offers satisfy a property. -/
def OffersReach (context : Context) (P : String → Prop) (scope : File) (type : SimpleType) : Prop :=
  ∀ located, context.linkage.Offers scope type located → P (typeLink context located)

theorem inPlace_typeReference {scope : File} {name : QName}
    (h : name.isBuiltin = false → ∀ located, context.linkage.type? scope name = some located →
      P (typeLink context located)) (referencing : String) :
    Yields (typeReference context scope name referencing) (LinksInPlace P) := by
  unfold typeReference
  split
  · exact Yields.found fun schema hs => (Datatype.isSchema_schemaOf? hs).links.inPlace
  · next hb =>
      exact (Yields.found (P := fun located => context.linkage.type? scope name = some located)
        fun _ hl => hl).bind fun located hl =>
          Yields.pure (linksInPlace_link (h (Bool.eq_false_iff.2 hb) located hl))

/-- Named simple types are flattened to what they offer. -/
def ExpandsInPlace (context : Context) (P : String → Prop) (expand : SimpleExpansion) : Prop :=
  ∀ (located : Located NamedType) (type : SimpleType), OffersReach context P located.file type →
    Yields (expand located type) (SimpleInPlace P)

theorem inPlace_namedBase {expand : SimpleExpansion} (he : ExpandsInPlace context P expand)
    {scope : File} {name : QName} {facets : List Facet}
    (h : OffersReach context P scope (.restriction (.named name) facets)) (typeName : String) :
    Yields (namedBase context expand scope typeName name) (SimpleInPlace P) := by
  have builtin : ∀ name, Yields (builtinShape scope typeName name) (SimpleInPlace P) := fun name =>
    Yields.bind_any fun _ => Yields.pure True.intro
  unfold namedBase
  split
  · exact builtin name
  · next hb =>
      refine (Yields.found (P := fun found => context.linkage.type? scope name = some found)
        fun _ hl => hl).bind fun found hl => ?_
      split
      · next type htype =>
          exact (he found type fun located ho =>
            h located (.base (Bool.eq_false_iff.2 hb) hl htype ho)).visiting
      · exact Yields.bind_any fun _ => builtin _

mutual

theorem inPlace_shapeWith {expand : SimpleExpansion} (he : ExpandsInPlace context P expand)
    {scope : File} (typeName : String) (report : Bool) : ∀ type : SimpleType,
      OffersReach context P scope type →
      Yields (shapeWith context expand scope typeName report type) (SimpleInPlace P)
  | .restriction base facets, h => by
      unfold shapeWith
      refine (inPlace_baseShape he typeName report base h).bind fun inherited hi => ?_
      cases report with
      | true => exact Yields.bind_any fun _ => Yields.pure (hi.restrict facets)
      | false => exact Yields.pure (hi.restrict facets)
  | .list item, _ => by
      unfold shapeWith
      exact Yields.bind_any fun _ => Yields.pure True.intro
  | .union members, h => by
      unfold shapeWith
      exact (inPlace_memberSchemas he typeName report members h).bind fun _ hs => Yields.pure hs

theorem inPlace_baseShape {expand : SimpleExpansion} (he : ExpandsInPlace context P expand)
    {scope : File} (typeName : String) (report : Bool) {facets : List Facet} :
    ∀ base : SimpleBase, OffersReach context P scope (.restriction base facets) →
      Yields (baseShape context expand scope typeName report base) (SimpleInPlace P)
  | .inline type, h => by
      unfold baseShape
      exact inPlace_shapeWith he typeName report type fun located ho => h located (.within ho)
  | .named name, h => by
      unfold baseShape
      exact inPlace_namedBase he h typeName

theorem inPlace_memberSchemas {expand : SimpleExpansion} (he : ExpandsInPlace context P expand)
    {scope : File} (typeName : String) (report : Bool) : ∀ members : List SimpleBase,
      OffersReach context P scope (.union members) →
      Yields (memberSchemas context expand scope typeName report members)
        fun schemas => ∀ schema ∈ schemas, LinksInPlace P schema
  | [], _ => by
      unfold memberSchemas
      exact Yields.pure fun _ h => absurd h List.not_mem_nil
  | m :: rest, h => by
      have others : OffersReach context P scope (.union rest) := by
        rintro located (⟨hm, hb, hl⟩ | ⟨hm, ho⟩)
        · exact h located (.named (List.mem_cons_of_mem _ hm) hb hl)
        · exact h located (.inline (List.mem_cons_of_mem _ hm) ho)
      unfold memberSchemas
      refine Yields.bind (P := LinksInPlace P) ?_ fun schema hs =>
        (inPlace_memberSchemas he typeName report rest others).bind fun more hm =>
          Yields.pure (List.forall_mem_cons.2 ⟨hs, hm⟩)
      cases m with
      | named name =>
          unfold baseSchemaWith
          exact inPlace_typeReference (fun hb located hl =>
            h located (.named List.mem_cons_self hb hl)) _
      | inline type =>
          unfold baseSchemaWith
          exact (inPlace_shapeWith he typeName report type fun located ho =>
            h located (.inline List.mem_cons_self ho)).bind fun _ hs => Yields.pure hs.schema

end

theorem expandsInPlace_expandSimple (context : Context) (P : String → Prop) : ∀ depth : Nat,
    ExpandsInPlace context P (expandSimple context depth)
  | 0, _, _, _ => Yields.throw
  | depth + 1, _, type, h =>
    inPlace_shapeWith (expandsInPlace_expandSimple context P depth) _ _ type h

theorem inPlace_simpleSchema {scope : File} (typeName : String) (report : Bool)
    {type : SimpleType} (h : OffersReach context P scope type) :
    Yields (simpleSchema context scope typeName report type) (LinksInPlace P) :=
  (inPlace_shapeWith (expandsInPlace_expandSimple context P _) typeName report type h).bind
    fun _ hs => Yields.pure hs.schema

/-! ### Declarations -/

theorem inPlace_simpleDefinition {t : NamedType} {type : SimpleType}
    (ht : t.definition = .simple type) (h : OffersReach context P context.file type) :
    Yields (typeDefinition context t) fun entry => LinksInPlace P entry.2 := by
  unfold typeDefinition
  rw [ht]
  exact ((inPlace_simpleSchema _ true h).visiting).bind fun _ hs =>
    Yields.pure (inPlace_withKeywords hs (inPlace_descriptionOf _))

theorem inPlace_complexDefinition {t : NamedType} {type : ComplexType}
    (ht : t.definition = .complex type) :
    Yields (typeDefinition context t) fun entry =>
      LinksInPlace (IsGroupLink context) entry.2 := by
  have reaches := reaches_true context
  unfold typeDefinition
  rw [ht]
  refine (Yields.visiting ?_).bind fun _ hs =>
    Yields.pure (inPlace_withKeywords hs (inPlace_descriptionOf _))
  exact (yields_complexShape reaches _ _).bind fun _ hs => Yields.pure (hs.inPlace _ _)

theorem inPlace_groupDefinition (group : NamedGroup) :
    Yields (groupDefinition context group) fun entry => LinksInPlace (fun _ => False) entry.2 := by
  have reaches := reaches_true context
  exact ((yields_groupShape reaches _ _).visiting).bind fun _ hs =>
    Yields.pure (inPlace_withKeywords (hs.inPlace _ _) (inPlace_descriptionOf _))

/-- The links to all types and to all groups that are reused satisfy the property. -/
structure TypesReach (context : Context) (P : String → Prop) : Prop where
  type : ∀ {scope : File} {name : QName} {located : Located NamedType},
    context.linkage.type? scope name = some located → P (typeLink context located)
  group : ∀ link, IsGroupLink context link → P link

theorem inPlace_elementTypeSchema (h : TypesReach context P) (site : Site) (elementName : String)
    (type : ElementType) :
    Yields (elementTypeSchema context (allExpansions context) site elementName type)
      (LinksInPlace P) := by
  have reaches := reaches_true context
  cases type with
  | named name =>
      unfold elementTypeSchema
      exact inPlace_typeReference (fun _ _ hl => h.type hl) _
  | simple type =>
      unfold elementTypeSchema
      refine inPlace_simpleSchema elementName true fun located ho => ?_
      obtain ⟨_, _, hl⟩ := ho.found
      exact h.type hl
  | complex type =>
      unfold elementTypeSchema
      exact (yields_complexShape reaches site type).bind fun _ hs =>
        Yields.pure ((hs.inPlace _ _).mono h.group)
  | any =>
      unfold elementTypeSchema
      exact Yields.pure (linksInPlace_object.2 MembersInPlace.nil)

theorem inPlace_elementProperty (h : TypesReach context P) (element : Element) :
    Yields (elementProperty context element) fun entry => LinksInPlace P entry.2 := by
  obtain ⟨name, qualified, type, nillable, default, fixed, documentation⟩ := element
  unfold elementProperty elementSchema
  refine Yields.bind ((inPlace_elementTypeSchema h _ name.name type).bind fun _ hb =>
    (inPlace_elementKeywords (P := P) _ type default fixed documentation).bind fun _ hx =>
      Yields.pure ?_) fun _ hs => Yields.pure hs
  split
  · exact inPlace_orNull (inPlace_withKeywords hb hx)
  · exact inPlace_withKeywords hb hx

end Conversion

end Crosswalk
