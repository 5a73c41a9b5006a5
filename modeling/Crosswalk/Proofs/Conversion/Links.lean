import Crosswalk.Proofs.Conversion.Kept
import Crosswalk.Proofs.Json.Keywords

/-!
# The links that conversions write

A conversion writes links to named types, to global elements, and to model groups that are reused,
and only to those that the linkage finds. Everything else in a schema is keywords with values of
their own. So a property of the links to what the linkage finds is a property of all links in the
schema of a declaration, however deep in bases, groups and nested types they were written. The
constraints of an object have no links but those to model groups, and inside of a group and of a
choice there are none of these either.
-/

namespace Crosswalk

open Json

variable {P G H : String → Prop}

namespace Conversion

/-- The link to a member of a section of a file's document. -/
def linkText (context : Context) (target : File) (sectionName name : String) : String :=
  Link.text (if isOwn context target then none else some target.identifier) sectionName name

/-- The link to the definition of a type. -/
def typeLink (context : Context) (located : Located NamedType) : String :=
  linkText context located.file "definitions" located.declaration.name.name

/-- A link to the definition of a model group that is reused. -/
def IsGroupLink (context : Context) (link : String) : Prop :=
  ∃ (scope : File) (name : QName) (located : Located NamedGroup),
    context.linkage.group? scope name = some located ∧
      context.linkage.isReused located.declaration.name = true ∧
      link = linkText context located.file "definitions" (groupKey located.declaration.name.name)

/-- The links to whatever the linkage finds satisfy the property. -/
structure Reaches (context : Context) (P : String → Prop) : Prop where
  type : ∀ {scope : File} {name : QName} {located : Located NamedType},
    context.linkage.type? scope name = some located →
      IsSchema P (linkTo context located.file "definitions" located.declaration.name.name)
  element : ∀ {scope : File} {name : QName} {located : Located Element},
    context.linkage.element? scope name = some located →
      IsSchema P (linkTo context located.file "properties" located.declaration.name.name)
  group : ∀ {scope : File} {name : QName} {located : Located NamedGroup},
    context.linkage.group? scope name = some located →
      context.linkage.isReused located.declaration.name = true →
      IsSchema P
        (linkTo context located.file "definitions" (groupKey located.declaration.name.name))

theorem Reaches.groupLink {context : Context} (reaches : Reaches context P) {link : String}
    (h : IsGroupLink context link) : IsSchema P (Link.schema link) := by
  obtain ⟨scope, name, located, hl, hr, rfl⟩ := h
  exact reaches.group hl hr

/-! ### Simple types -/

/-- Every link in the schemas that a flattened simple type holds satisfies the property. -/
def SimpleLinks (P : String → Prop) : SimpleShape → Prop
  | .atomic _ _ => True
  | .list item _ => IsSchema P item
  | .union members => ∀ member ∈ members, IsSchema P member

theorem SimpleLinks.restrict {shape : SimpleShape} (h : SimpleLinks P shape)
    (facets : List Facet) : SimpleLinks P (shape.restrict facets).1 := by
  cases shape with
  | atomic datatype inherited => exact True.intro
  | list item inherited => exact h
  | union members => exact h

theorem SimpleLinks.schema {shape : SimpleShape} (h : SimpleLinks P shape) :
    IsSchema P shape.schema := by
  cases shape with
  | atomic datatype facets => exact isSchema_object.2 (facets.membersAre_keywords datatype)
  | list item facets =>
      have array : MembersAre P (Table.ofList [("type", .string "array"), ("items", item)]) :=
        MembersAre.ofList (.cons (.of_ne (by decide) (linksSatisfy_string _))
          (.cons (h.member _) .nil))
      exact isSchema_object.2 ((array.withScalar _ (by decide) facets.minLength
        linksSatisfy_nat).withScalar _ (by decide) facets.maxLength linksSatisfy_nat)
  | union members =>
      exact isSchema_object.2 (MembersAre.cons (.of_ne (by decide)
        (linksSatisfy_array.2 fun member hm => (h member hm).links)) .nil)

/-! ### Keywords beside a schema -/

theorem membersAre_descriptionOf (documentation : Option String) :
    MembersAre P (descriptionOf documentation) := by
  cases documentation with
  | none => exact .nil
  | some text => exact .cons (.of_ne (by decide) (linksSatisfy_string text)) .nil

theorem IsRemark.memberSatisfies {member : String × Json} (h : IsRemark member) :
    MemberSatisfies P member := by
  cases h with
  | description text => exact .of_ne (by decide) (linksSatisfy_string text)
  | const space text => exact .of_ne (by decide) (space.linksSatisfy_literal text)
  | default space text => exact .of_ne (by decide) (space.linksSatisfy_literal text)

theorem isSchema_withKeywords {schema : Json} (h : IsSchema P schema)
    {extras : Table String Json} (he : MembersAre P extras) :
    IsSchema P (withKeywords schema extras) := by
  have hall : MembersAre P [("allOf", .array [schema])] :=
    .cons (.of_ne (by decide) (linksSatisfy_array.2 fun item hi =>
      List.mem_singleton.1 hi ▸ h.links)) .nil
  unfold withKeywords
  split
  · exact h
  · refine isSchema_object.2 (List.foldlRecOn extras _ ?_ fun fields hf member hm =>
      MembersAre.insert hf _ (he member hm))
    split
    · split
      · exact hall
      · exact isSchema_object.1 h
    · exact hall

/-- Either of two schemas, or both of them, as the keyword says. -/
theorem isSchema_pair {keyword : String} (hk : keyword ≠ "$ref") {a b : Json}
    (ha : IsSchema P a) (hb : IsSchema P b) :
    IsSchema P (.object [(keyword, .array [a, b])]) := by
  refine isSchema_object.2 (MembersAre.cons (.of_ne hk (linksSatisfy_array.2 ?_)) .nil)
  simp [ha.links, hb.links]

theorem isSchema_orNull {schema : Json} (h : IsSchema P schema) : IsSchema P (orNull schema) :=
  isSchema_pair (by decide) h
    (isSchema_object.2 (.cons (.of_ne (by decide) (linksSatisfy_string _)) .nil))

/-! ### Shapes -/

/-- Every link in the schemas of members and character data satisfies one property, and the links
to groups satisfy another one. The constraints of choices have no links. -/
structure ShapeLinks (P G : String → Prop) (shape : Shape) : Prop where
  slots : ∀ entry ∈ shape.slots, IsSchema P entry.2.item
  choices : ∀ choice ∈ shape.choices, IsSchema (fun _ => False) choice
  groups : ∀ reference ∈ shape.groups, ∃ link, reference = Link.schema link ∧ G link
  text : ∀ text ∈ shape.text, IsSchema P text

theorem isSchema_slot {slot : Slot} (h : IsSchema P slot.item) : IsSchema P slot.schema := by
  have array : MembersAre P (Table.ofList [("type", .string "array"), ("items", slot.item)]) :=
    MembersAre.ofList (.cons (.of_ne (by decide) (linksSatisfy_string _))
      (.cons (h.member _) .nil))
  have least : MembersAre P (if slot.bounds.isRequired then
      Table.insert (Table.ofList [("type", .string "array"), ("items", slot.item)]) "minItems"
        (.nat slot.bounds.least.toNat)
      else Table.ofList [("type", .string "array"), ("items", slot.item)]) := by
    split
    · exact array.insert _ (.of_ne (by decide) (linksSatisfy_nat _))
    · exact array
  unfold Slot.schema
  split
  · cases slot.bounds.most with
    | bounded n =>
        exact isSchema_object.2
          (least.insert "maxItems" (.of_ne (by decide) (linksSatisfy_nat _)))
    | unbounded => exact isSchema_object.2 least
  · exact h

namespace ShapeLinks

variable {shape : Shape} (h : ShapeLinks P G shape)
include h

theorem constraints (hg : ∀ link, G link → IsSchema P (Link.schema link)) :
    MembersAre P shape.constraints := by
  have hall : ∀ schema ∈ shape.choices ++ shape.groups, IsSchema P schema := by
    intro schema hs
    rcases List.mem_append.1 hs with hs | hs
    · exact (h.choices schema hs).mono fun _ => False.elim
    · obtain ⟨link, rfl, hl⟩ := h.groups schema hs
      exact hg link hl
  have hlist : MembersAre P [("allOf", .array (shape.choices ++ shape.groups))] :=
    .cons (.of_ne (by decide) (linksSatisfy_array.2 fun item hi => (hall item hi).links)) .nil
  unfold Shape.constraints
  split
  · exact .nil
  · next fields heq =>
      rw [heq] at hall hlist
      split
      · exact hlist
      · exact isSchema_object.1 (hall _ List.mem_cons_self)
  · exact hlist

/-- The schema of the object has no links but those that the shape holds. -/
theorem schema (hg : ∀ link, G link → IsSchema P (Link.schema link)) (closed : Bool)
    (textProperty : String) : IsSchema P (shape.schema closed textProperty) := by
  have properties : MembersAre P (shape.properties textProperty) := by
    refine MembersAre.ofList (MembersAre.append ?_ ?_)
    · intro member hm
      obtain ⟨text, ht, rfl⟩ := List.mem_map.1 hm
      exact (h.text text (Option.mem_toList.1 ht)).member textProperty
    · intro member hm
      obtain ⟨entry, he, rfl⟩ := List.mem_map.1 hm
      exact (isSchema_slot (h.slots entry he)).member entry.1
  refine isSchema_ofFields (MembersAre.append (.append (.append (.append ?_ ?_) ?_) ?_)
    (h.constraints hg))
  · exact .cons (.of_ne (by decide) (linksSatisfy_string _)) .nil
  · split
    · exact .nil
    · exact .cons (.of_ne (by decide) (linksSatisfy_object.2 properties)) .nil
  · split
    · exact .nil
    · exact .cons (.of_ne (by decide) (linksSatisfy_strings _)) .nil
  · split
    · exact .cons (.of_ne (by decide) (linksSatisfy_bool _)) .nil
    · exact .nil

end ShapeLinks

theorem linksSatisfy_presence (names : List String) :
    LinksSatisfy P (.array (Shape.presence names)) := by
  refine linksSatisfy_array.2 fun item hi => ?_
  obtain ⟨name, -, rfl⟩ := List.mem_map.1 hi
  exact linksSatisfy_object.2 (.cons (.of_ne (by decide) (linksSatisfy_strings _)) .nil)

theorem linksSatisfy_absence (names : List String) : LinksSatisfy P (Shape.absence names) :=
  linksSatisfy_object.2 (.cons (.of_ne (by decide) (linksSatisfy_presence names)) .nil)

theorem linksSatisfy_alternative {branch : Shape} (h : ∀ choice ∈ branch.choices, IsSchema P choice)
    (all : List String) (exclusive : Bool) :
    LinksSatisfy P (branch.alternative all exclusive) := by
  refine (isSchema_ofFields (MembersAre.append (.append ?_ ?_) ?_)).links
  · split
    · exact .cons (.of_ne (by decide) (linksSatisfy_strings _)) .nil
    · split
      · exact .cons (.of_ne (by decide) (linksSatisfy_presence _)) .nil
      · exact .nil
  · split
    · exact .cons (.of_ne (by decide) (linksSatisfy_absence _)) .nil
    · exact .nil
  · split
    · exact .nil
    · exact .cons (.of_ne (by decide)
        (linksSatisfy_array.2 fun choice hc => (h choice hc).links)) .nil

theorem isSchema_choice? {branches : List Shape}
    (h : ∀ branch ∈ branches, ∀ choice ∈ branch.choices, IsSchema P choice)
    {obliged : Bool} {choice : Json} (hc : Shape.choice? branches obliged = some choice) :
    IsSchema P choice := by
  unfold Shape.choice? at hc
  simp only at hc
  split at hc
  · exact absurd hc (by simp)
  · obtain rfl := Option.some.inj hc
    refine isSchema_object.2 (MembersAre.cons (.of_ne ?_ (linksSatisfy_array.2 ?_)) .nil)
    · split <;> decide
    · intro item hi
      rcases List.mem_append.1 hi with hi | hi
      · obtain ⟨branch, hb, rfl⟩ := List.mem_map.1 hi
        exact linksSatisfy_alternative (h branch (List.mem_filter.1 hb).1) _ _
      · split at hi
        · obtain rfl := List.mem_singleton.1 hi
          exact linksSatisfy_object.2
            (.cons (.of_ne (by decide) (linksSatisfy_absence _)) .nil)
        · exact absurd hi List.not_mem_nil

/-! ### All schemas -/

variable {context : Context}

/-- The standard for links: those in schemas satisfy a property, and only groups that are reused are
referred to as groups. -/
def linkStandard (context : Context) (P : String → Prop) : Standard where
  detail _ := True
  name _ := True
  schema := IsSchema P
  flat := SimpleLinks P
  choice := IsSchema fun _ => False
  group reference := ∃ link, reference = Link.schema link ∧ IsGroupLink context link

theorem knows_linkStandard (details : List Detail) : (linkStandard context P).Knows details :=
  fun _ _ => True.intro

theorem ShapeLinks.of_admits {nested : Bool} {shape : Shape}
    (h : (linkStandard context P).Admits nested shape)
    (hG : nested = false → ∀ link, IsGroupLink context link → G link) : ShapeLinks P G shape where
  slots entry he := (h.slots entry he).2
  choices := h.choices
  groups reference hr := by
    obtain ⟨hn, link, rfl, hl⟩ := h.groups reference hr
    exact ⟨link, rfl, hG hn link hl⟩
  text := h.text

theorem Reaches.isKept (reaches : Reaches context P) : (linkStandard context P).IsKept context where
  ofType hl := ⟨knows_linkStandard _, reaches.type hl⟩
  ofElement hl := ⟨knows_linkStandard _, reaches.element hl⟩
  ofGroup hl := ⟨knows_linkStandard _, fun hr => ⟨_, rfl, _, _, _, hl, hr, rfl⟩⟩
  ofAttribute _ := knows_linkStandard _
  ofAttributeGroup _ := knows_linkStandard _
  member _ _ _ := True.intro
  builtin _ _ := Datatype.isSchema_schemaOf?
  atomic _ := True.intro
  list h := h
  union _ _ h := h
  restrict h := h.restrict
  written h := h.schema
  remarked h _ he := isSchema_withKeywords h fun member hm => (he member hm).memberSatisfies
  nullable := isSchema_orNull
  either := isSchema_pair (by decide)
  both := isSchema_pair (by decide)
  anything := ⟨linksSatisfy_bool true, fun _ => Json.noConfusion⟩
  choice hb _ _ hc := isSchema_choice? (fun branch hbm => (hb branch hbm).choices) hc
  object h _ := (ShapeLinks.of_admits h fun _ _ hl => hl).schema (fun _ => reaches.groupLink) _ _

/-- In the shape of a complex type, the links to groups are those to groups that are reused. -/
theorem yields_complexShape (reaches : Reaches context P) (site : Site) (type : ComplexType) :
    Yields (collectComplex context (allExpansions context) site .everything {} type)
      (ShapeLinks P (IsGroupLink context)) :=
  (reaches.isKept.complexShape site (knows_linkStandard _)).mono fun _ h =>
    .of_admits h fun _ _ hl => hl

/-- In the shape of a group there are none. -/
theorem yields_groupShape (reaches : Reaches context P) (site : Site) (group : ModelGroup) :
    Yields (collectGroup context (allExpansions context) site .once true {} group)
      (ShapeLinks P fun _ => False) :=
  (reaches.isKept.groupShape site (knows_linkStandard _)).mono fun _ h => .of_admits h nofun

theorem yields_typeDefinition (reaches : Reaches context P) (type : NamedType) :
    Yields (typeDefinition context type) fun entry =>
      entry.1 = type.name.name ∧ IsSchema P entry.2 :=
  reaches.isKept.typeDefinition (knows_linkStandard _)

theorem yields_groupDefinition (reaches : Reaches context P) (group : NamedGroup) :
    Yields (groupDefinition context group) fun entry =>
      entry.1 = groupKey group.name.name ∧ IsSchema P entry.2 :=
  reaches.isKept.groupDefinition (knows_linkStandard _)

theorem yields_elementProperty (reaches : Reaches context P) (element : Element) :
    Yields (elementProperty context element) fun entry =>
      entry.1 = element.name.name ∧ IsSchema P entry.2 :=
  reaches.isKept.elementProperty (knows_linkStandard _)

end Conversion

end Crosswalk
