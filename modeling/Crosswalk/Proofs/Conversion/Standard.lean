import Crosswalk.Proofs.Content.Slots
import Crosswalk.Proofs.Schema.Details

/-!
# Standards that conversions keep

A standard is a property of schemas, together with what it takes for it: properties of the names of
members, of flattened simple types, and of the constraints that shapes hold. It is kept if the
schemas of types of XML Schema itself and the links to what the linkage finds meet it, and whatever
is put together from parts that do. Then all that conversions yield meets it, however deep in bases,
groups and nested types it was made. The induction over the components of a schema is carried out
here once, and so what is true of all schemas that are written is a matter of the ways in which a
single one is put together.
-/

namespace Crosswalk

namespace Conversion

/-- Properties of what conversions work with. -/
structure Standard where
  /-- What is known of the details of declarations. -/
  detail : Detail → Prop
  /-- What the names of members are held to. -/
  name : String → Prop
  schema : Json → Prop
  flat : SimpleShape → Prop
  /-- What the constraints of choices are held to. -/
  choice : Json → Prop
  /-- What the links to groups are held to. -/
  group : Json → Prop

/-- The keywords that a declaration puts beside the schema of its type. -/
inductive IsRemark : String × Json → Prop
  | description (text : String) : IsRemark ("description", .string text)
  | const (space : ValueSpace) (text : String) : IsRemark ("const", space.literal text)
  | default (space : ValueSpace) (text : String) : IsRemark ("default", space.literal text)

/-- The details of a declaration are as they are known to be. -/
def Standard.Knows (S : Standard) (details : List Detail) : Prop := ∀ d ∈ details, S.detail d

/-- All parts of a shape meet a standard, and no name has two slots. Inside of groups and choices
there are no links to groups. -/
structure Standard.Admits (S : Standard) (nested : Bool) (shape : Shape) : Prop where
  nodup : shape.names.Nodup
  slots : ∀ entry ∈ shape.slots, S.name entry.1 ∧ S.schema entry.2.item
  choices : ∀ choice ∈ shape.choices, S.choice choice
  groups : ∀ link ∈ shape.groups, nested = false ∧ S.group link
  text : ∀ text ∈ shape.text, S.schema text

/-- What is put together from parts that meet a standard meets it. -/
structure Standard.IsKept (context : Context) (S : Standard) : Prop where
  ofType : ∀ {scope : File} {name : QName} {located : Located NamedType},
    context.linkage.type? scope name = some located →
      S.Knows located.declaration.details ∧
        S.schema (linkTo context located.file "definitions" located.declaration.name.name)
  ofElement : ∀ {scope : File} {name : QName} {located : Located Element},
    context.linkage.element? scope name = some located →
      S.Knows located.declaration.details ∧
        S.schema (linkTo context located.file "properties" located.declaration.name.name)
  ofGroup : ∀ {scope : File} {name : QName} {located : Located NamedGroup},
    context.linkage.group? scope name = some located →
      S.Knows located.declaration.details ∧
        (context.linkage.isReused located.declaration.name = true → S.group
          (linkTo context located.file "definitions" (groupKey located.declaration.name.name)))
  ofAttribute : ∀ {scope : File} {name : QName} {located : Located Attribute},
    context.linkage.attribute? scope name = some located → S.Knows located.declaration.details
  ofAttributeGroup : ∀ {scope : File} {name : QName} {located : Located AttributeGroup},
    context.linkage.attributeGroup? scope name = some located →
      S.Knows located.declaration.details
  member : ∀ {name : QName}, S.detail (.name name) → ∀ (scope : File) (qualified : Bool),
    S.name (propertyName context scope name qualified)
  builtin : ∀ (name : String) {schema : Json},
    Datatype.schemaOf? name = some schema → S.schema schema
  atomic : ∀ d : Datatype, S.flat (.atomic d (.ofDatatype d))
  list : ∀ {item : Json}, S.schema item → S.flat (.list item {})
  union : ∀ {members : List SimpleBase} {schemas : List Json}, S.detail (.union members) →
    schemas.length = members.length → (∀ schema ∈ schemas, S.schema schema) →
      S.flat (.union schemas)
  restrict : ∀ {shape : SimpleShape}, S.flat shape → ∀ facets : List Facet,
    S.flat (shape.restrict facets).1
  written : ∀ {shape : SimpleShape}, S.flat shape → S.schema shape.schema
  remarked : ∀ {schema : Json}, S.schema schema → ∀ {extras : Table String Json},
    (∀ member ∈ extras, IsRemark member) → S.schema (withKeywords schema extras)
  nullable : ∀ {schema : Json}, S.schema schema → S.schema (orNull schema)
  either : ∀ {a b : Json}, S.schema a → S.schema b →
    S.schema (.object [("anyOf", .array [a, b])])
  both : ∀ {a b : Json}, S.schema a → S.schema b → S.schema (.object [("allOf", .array [a, b])])
  anything : S.schema (.bool true)
  choice : ∀ {branches : List Shape}, (∀ branch ∈ branches, S.Admits true branch) →
    ∀ {obliged : Bool} {choice : Json}, Shape.choice? branches obliged = some choice →
      S.choice choice
  object : ∀ {nested : Bool} {shape : Shape}, S.Admits nested shape → ∀ closed : Bool,
    S.schema (shape.schema closed context.options.textProperty)

namespace Standard

variable {context : Context} {S : Standard}

theorem Knows.left {first rest : List Detail} (h : S.Knows (first ++ rest)) : S.Knows first :=
  fun d hd => h d (List.mem_append_left _ hd)

theorem Knows.right {first rest : List Detail} (h : S.Knows (first ++ rest)) : S.Knows rest :=
  fun d hd => h d (List.mem_append_right _ hd)

theorem Knows.head {d : Detail} {rest : List Detail} (h : S.Knows (d :: rest)) : S.detail d :=
  h d List.mem_cons_self

theorem Knows.tail {d : Detail} {rest : List Detail} (h : S.Knows (d :: rest)) : S.Knows rest :=
  fun e he => h e (List.mem_cons_of_mem _ he)

/-! ### Shapes -/

namespace Admits

variable {nested : Bool} {shape : Shape}

theorem empty : S.Admits nested {} :=
  ⟨List.nodup_nil, by simp, by simp, by simp, by simp⟩

variable (h : S.Admits nested shape)
include h

theorem opened (isOpen : Bool) : S.Admits nested { shape with isOpen } :=
  ⟨h.nodup, h.slots, h.choices, h.groups, h.text⟩

theorem withText {text : Json} (ht : S.schema text) :
    S.Admits nested { shape with text := some text } :=
  ⟨h.nodup, h.slots, h.choices, h.groups, fun _ hs => Option.some.inj hs ▸ ht⟩

theorem item {entry : String × Slot} (he : entry ∈ shape.slots) : S.schema entry.2.item :=
  (h.slots entry he).2

/-- A slot that is placed holds the schema it was given, or one made of that and an earlier one. -/
theorem placed {change : Slot → Slot} {name : String} {slot : Slot} (hn : S.name name)
    (hs : S.schema slot.item)
    (hc : ∀ old : Slot, S.schema old.item → S.schema (change old).item) :
    S.Admits nested { shape with slots := Shape.place change name slot shape.slots } := by
  have entries : ∀ {slots : List (String × Slot)},
      (∀ entry ∈ slots, S.name entry.1 ∧ S.schema entry.2.item) →
      ∀ entry ∈ Shape.place change name slot slots, S.name entry.1 ∧ S.schema entry.2.item := by
    intro slots hslots
    induction slots with
    | nil => exact List.forall_mem_singleton.2 ⟨hn, hs⟩
    | cons e rest ih =>
        rw [List.forall_mem_cons] at hslots
        rw [Shape.place]
        split
        · exact List.forall_mem_cons.2 ⟨⟨hslots.1.1, hc _ hslots.1.2⟩, hslots.2⟩
        · exact List.forall_mem_cons.2 ⟨hslots.1, ih hslots.2⟩
  exact ⟨Shape.nodup_keys_place h.nodup, entries h.slots, h.choices, h.groups, h.text⟩

theorem addElement {join : Slot → Slot → Slot} {name : String} (hn : S.name name) {slot : Slot}
    (hj : ∀ old : Slot, S.schema old.item → S.schema (join old slot).item)
    (hs : S.schema slot.item) : S.Admits nested (shape.addElement join name slot).1 := by
  unfold Shape.addElement
  split
  · exact h.placed hn hs fun old ho => ho
  · split
    · exact h
    · exact h.placed hn hs hj

theorem addAttribute? {name : String} (hn : S.name name) {slot : Slot} (hs : S.schema slot.item)
    {result : Shape} (hr : shape.addAttribute? name slot = some result) :
    S.Admits nested result := by
  unfold Shape.addAttribute? at hr
  split at hr
  · exact absurd hr (by simp)
  · exact Option.some.inj hr ▸ h.placed hn hs fun _ _ => hs

theorem removeAttribute (name : String) : S.Admits nested (shape.removeAttribute name) where
  nodup := h.nodup.sublist (List.filter_sublist.map _)
  slots entry he := h.slots entry (List.mem_filter.1 he).1
  choices := h.choices
  groups := h.groups
  text := h.text

end Admits

namespace IsKept

variable (h : S.IsKept context)
include h

theorem eitherItem {a b : Slot} (ha : S.schema a.item) (hb : S.schema b.item) :
    S.schema (a.eitherItem b) := by
  unfold Slot.eitherItem
  split
  · exact ha
  · exact h.either ha hb

theorem addReference {shape members : Shape} (hs : S.Admits false shape)
    (hm : S.Admits true members) {link : Json} (hl : S.group link) :
    S.Admits false (shape.addReference members link) := by
  have joined : S.Admits false (members.names.foldl
      (fun s name => (s.addElement Slot.andThen name .placeholder).1) shape) := by
    refine List.foldlRecOn members.names _ hs fun s hs name hn => ?_
    obtain ⟨entry, he, rfl⟩ := List.mem_map.1 hn
    exact hs.addElement (hm.slots entry he).1 (fun _ ho => h.eitherItem ho h.anything) h.anything
  refine ⟨joined.nodup, joined.slots, joined.choices, fun g hg => ?_, joined.text⟩
  rcases List.mem_append.1 hg with hg | hg
  · exact joined.groups g hg
  · exact List.mem_singleton.1 hg ▸ ⟨rfl, hl⟩

/-! ### Simple types -/

theorem typeReference (scope : File) (name : QName) (referencing : String) :
    Yields (Conversion.typeReference context scope name referencing) S.schema := by
  unfold Conversion.typeReference
  split
  · exact Yields.found fun schema => h.builtin _
  · exact (Yields.found fun located hl => (h.ofType hl).2).bind fun located hl => Yields.pure hl

theorem builtinShape (scope : File) (typeName : String) (name : QName) :
    Yields (Conversion.builtinShape scope typeName name) S.flat :=
  Yields.bind_any fun d => Yields.pure (h.atomic d)

omit h in
/-- Simple types are flattened to what meets a standard. -/
def Flattens (S : Standard) (expand : SimpleExpansion) : Prop :=
  ∀ located type, S.Knows type.details → Yields (expand located type) S.flat

theorem namedBase {expand : SimpleExpansion} (he : Flattens S expand) (scope : File)
    (typeName : String) (name : QName) :
    Yields (Conversion.namedBase context expand scope typeName name) S.flat := by
  unfold Conversion.namedBase
  split
  · exact h.builtinShape scope typeName name
  · refine (Yields.found fun located hl => (h.ofType hl).1).bind fun located hl => ?_
    split
    · next type hd =>
        have htype : S.Knows located.declaration.definition.details := hl.tail
        rw [hd] at htype
        exact (he located type htype).visiting
    · exact Yields.bind_any fun _ => h.builtinShape scope typeName _

omit h

mutual

theorem shapeWith (h : S.IsKept context) {expand : SimpleExpansion} (he : Flattens S expand)
    (scope : File) (typeName : String) (report : Bool) : ∀ type : SimpleType, S.Knows type.details →
      Yields (Conversion.shapeWith context expand scope typeName report type) S.flat
  | .restriction base facets, hk => by
      unfold Conversion.shapeWith
      refine (h.baseShape he scope typeName report base hk).bind fun inherited hi => ?_
      cases report with
      | true => exact Yields.bind_any fun _ => Yields.pure (h.restrict hi facets)
      | false => exact Yields.pure (h.restrict hi facets)
  | .list item, hk => by
      unfold Conversion.shapeWith
      exact (h.baseSchemaWith he scope typeName report item hk).bind fun schema hs =>
        Yields.pure (h.list hs)
  | .union members, hk => by
      unfold Conversion.shapeWith
      exact (h.memberSchemas he scope typeName report members (Knows.tail hk)).bind
        fun schemas hs => Yields.pure (h.union (Knows.head hk) hs.1 hs.2)

theorem baseShape (h : S.IsKept context) {expand : SimpleExpansion} (he : Flattens S expand)
    (scope : File) (typeName : String) (report : Bool) : ∀ base : SimpleBase, S.Knows base.details →
      Yields (Conversion.baseShape context expand scope typeName report base) S.flat
  | .inline type, hk => by
      unfold Conversion.baseShape
      exact h.shapeWith he scope typeName report type hk
  | .named name, _ => by
      unfold Conversion.baseShape
      exact h.namedBase he scope typeName name

theorem baseSchemaWith (h : S.IsKept context) {expand : SimpleExpansion} (he : Flattens S expand)
    (scope : File) (typeName : String) (report : Bool) : ∀ base : SimpleBase, S.Knows base.details →
      Yields (Conversion.baseSchemaWith context expand scope typeName report base) S.schema
  | .named name, _ => by
      unfold Conversion.baseSchemaWith
      exact h.typeReference scope name _
  | .inline type, hk => by
      unfold Conversion.baseSchemaWith
      exact (h.shapeWith he scope typeName report type hk).bind fun shape hs =>
        Yields.pure (h.written hs)

theorem memberSchemas (h : S.IsKept context) {expand : SimpleExpansion} (he : Flattens S expand)
    (scope : File) (typeName : String) (report : Bool) : ∀ members : List SimpleBase,
      S.Knows (basesDetails members) →
      Yields (Conversion.memberSchemas context expand scope typeName report members)
        fun schemas => schemas.length = members.length ∧ ∀ schema ∈ schemas, S.schema schema
  | [], _ => by
      unfold Conversion.memberSchemas
      exact Yields.pure ⟨rfl, fun _ h => absurd h List.not_mem_nil⟩
  | m :: rest, hk => by
      unfold Conversion.memberSchemas
      exact (h.baseSchemaWith he scope typeName report m (Knows.left hk)).bind fun schema hs =>
        (h.memberSchemas he scope typeName report rest (Knows.right hk)).bind fun more hm =>
          Yields.pure ⟨congrArg (· + 1) hm.1, List.forall_mem_cons.2 ⟨hs, hm.2⟩⟩

end

include h

theorem expandSimple : ∀ depth : Nat, Flattens S (Conversion.expandSimple context depth)
  | 0, _, _, _ => Yields.throw
  | depth + 1, located, type, hk =>
    h.shapeWith (expandSimple depth) located.file located.declaration.name.name false type hk

theorem simpleSchema (scope : File) (typeName : String) (report : Bool) {type : SimpleType}
    (hk : S.Knows type.details) :
    Yields (Conversion.simpleSchema context scope typeName report type) S.schema :=
  (h.shapeWith (h.expandSimple _) scope typeName report type hk).bind
    fun _ hs => Yields.pure (h.written hs)

theorem baseSchema (scope : File) (typeName : String) {base : SimpleBase}
    (hk : S.Knows base.details) :
    Yields (Conversion.baseSchema context scope typeName base) S.schema := by
  unfold Conversion.baseSchema
  split
  · exact h.typeReference scope _ _
  · exact h.simpleSchema scope typeName true hk

end IsKept

end Standard

end Conversion

end Crosswalk
