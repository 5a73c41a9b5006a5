import Crosswalk.Proofs.Content.Text
import Crosswalk.Proofs.Content.Types
import Crosswalk.Proofs.Conversion.WellFormed
import Crosswalk.Proofs.Inlining.Object

/-!
# What is rendered of a shape

The schema of a shape should describe one property for the character data and one for each slot. The
slots have different names, but the name of the character data comes from the options, and nothing
keeps it from being the name of a slot. The shape is rendered in full if and only if it is not. If it
is, the slot takes the place of the character data, and a required one is required twice.
-/

namespace Crosswalk

namespace Json

/-- The properties that the schema of an object describes. -/
def described (schema : Json) : Table String Json :=
  ((schema.field? "properties").bind fields?).getD []

/-- The properties that the schema of an object asks for. -/
def demanded (schema : Json) : List String :=
  (((schema.field? "required").bind array?).getD []).filterMap string?

end Json

open Json Conversion

namespace Shape

/-- What there is to describe: the character data, and the slots. -/
def entries (s : Shape) (textProperty : String) : List (String × Json) :=
  (s.text.toList.map fun text => (textProperty, text)) ++ s.slots.map fun e => (e.1, e.2.schema)

/-- The schema describes all there is, under different names, and asks for none of the names twice or
without describing it. -/
structure Renders (s : Shape) (textProperty : String) (schema : Json) : Prop where
  properties : schema.described.Perm (s.entries textProperty)
  distinct : (Table.keys schema.described).Nodup
  required : schema.demanded.Nodup
  declared : ∀ name ∈ schema.demanded, name ∈ Table.keys schema.described

/-- A slot has the name of the character data. -/
def HidesText (s : Shape) (textProperty : String) : Prop :=
  s.text.isSome = true ∧ textProperty ∈ s.names

variable {s : Shape} {closed : Bool} {textProperty : String}

theorem properties_eq_ofList : s.properties textProperty = Table.ofList (s.entries textProperty) :=
  rfl

theorem keys_entries :
    (s.entries textProperty).map (·.1) = (s.text.toList.map fun _ => textProperty) ++ s.names := by
  simp [entries, names]

/-- The names of what there is to describe are different unless a slot hides the character data. -/
theorem nodup_keys_entries_iff (hn : s.names.Nodup) :
    ((s.entries textProperty).map (·.1)).Nodup ↔ ¬ s.HidesText textProperty := by
  rw [keys_entries, HidesText]
  cases s.text with
  | none => simpa using hn
  | some text => simp [hn]

/-- The names that are asked for are among those of what there is, in the same order. -/
theorem requiredProperties_sublist : (s.requiredProperties textProperty).Sublist
    ((s.entries textProperty).map (·.1)) := by
  rw [keys_entries, requiredProperties]
  exact (List.Sublist.refl _).append (List.filter_sublist.map _)

namespace IsMade

variable (h : s.IsMade)
include h

theorem described_schema : (s.schema closed textProperty).described =
    s.properties textProperty := by
  rw [schema_eq, described, field?]
  obtain hp | ⟨hp, hnil⟩ := h.properties_cases closed textProperty
  · rw [hp]
    rfl
  · rw [hp, hnil]
    rfl

theorem demanded_schema : (s.schema closed textProperty).demanded =
    s.requiredProperties textProperty := by
  have hstrings : ∀ names : List String, (names.map Json.string).filterMap string? = names :=
    fun names => by
      rw [List.filterMap_map]
      exact List.filterMap_some
  rw [schema_eq, demanded, field?]
  by_cases he : (s.requiredProperties textProperty).isEmpty = true
  · have hnone : Table.find? (Table.ofList (s.keywords closed textProperty)) "required" = none := by
      refine Table.find?_ofList_eq_none ?_
      unfold keywords
      rcases h.constraints_cases with ⟨-, -, hc⟩ | ⟨keyword, schemas, rfl | rfl, -, -, hc⟩ | hc <;>
        (rw [hc]; dsimp only; rw [if_pos he]; split_ifs <;> simp)
    rw [hnone, List.isEmpty_iff.1 he]
    rfl
  · have hmem : ("required", Json.strings (s.requiredProperties textProperty)) ∈
        s.keywords closed textProperty := by simp [keywords, he]
    rw [h.find?_keywords hmem]
    exact hstrings _

/-- Everything is rendered unless a slot hides the character data. -/
theorem renders_iff : s.Renders textProperty (s.schema closed textProperty) ↔
    ¬ s.HidesText textProperty := by
  rw [← nodup_keys_entries_iff h.nodup]
  constructor
  · intro hr
    have hlength := hr.properties.length_eq
    rw [h.described_schema, properties_eq_ofList] at hlength
    exact Table.length_ofList_eq_iff.1 hlength
  · intro hn
    refine ⟨?_, ?_, ?_, fun name hname => ?_⟩
    · rw [h.described_schema]
      exact Table.ofList_perm_self hn
    · rw [h.described_schema]
      exact (Table.sorted_ofList _).nodup
    · rw [h.demanded_schema]
      exact requiredProperties_sublist.nodup hn
    · rw [h.demanded_schema] at hname
      rw [h.described_schema, properties_eq_ofList, Table.mem_keys_ofList]
      exact requiredProperties_sublist.subset hname

/-- If a slot hides the character data, only the slots are described, while the name is asked for on
behalf of the character data, and of the slot as well if it is required. -/
theorem of_hidesText (hs : s.HidesText textProperty) :
    (s.schema closed textProperty).described.Perm (s.slots.map fun e => (e.1, e.2.schema)) ∧
      (s.schema closed textProperty).demanded = textProperty :: s.requiredNames := by
  obtain ⟨htext, hname⟩ := hs
  obtain ⟨text, htext⟩ := Option.isSome_iff_exists.1 htext
  have hkeys : ((s.slots.map fun e => (e.1, e.2.schema)).map (·.1)).Nodup := by
    rw [List.map_map]
    exact h.nodup
  have hslots : s.properties textProperty =
      Table.ofList (s.slots.map fun e => (e.1, e.2.schema)) := by
    refine (Table.sorted_ofList _).ext (Table.sorted_ofList _) fun key => ?_
    rw [Table.find?_ofList_append]
    cases hfind : Table.find? (Table.ofList (s.slots.map fun e => (e.1, e.2.schema))) key with
    | some schema => rfl
    | none =>
        have hne : key ≠ textProperty := by
          rintro rfl
          refine Table.find?_eq_none_iff.1 hfind (Table.mem_keys_ofList.2 ?_)
          rw [List.map_map]
          exact hname
        rw [htext, Option.none_or]
        exact Table.find?_ofList_eq_none (by simpa using hne)
  rw [h.described_schema, h.demanded_schema, hslots, requiredProperties, htext]
  exact ⟨Table.ofList_perm_self hkeys, rfl⟩

end IsMade

end Shape

namespace Conversion

variable {context : Context}

/-- The standard for the constraints of shapes: they are those of choices, and references. -/
def madeStandard : Standard where
  detail _ := True
  name _ := True
  schema _ := True
  flat _ := True
  choice := Shape.IsConstraint
  group reference := ∃ link, reference = Link.schema link

theorem knows_madeStandard (details : List Detail) : madeStandard.Knows details :=
  fun _ _ => trivial

theorem isKept_madeStandard : madeStandard.IsKept context where
  ofType _ := ⟨knows_madeStandard _, trivial⟩
  ofElement _ := ⟨knows_madeStandard _, trivial⟩
  ofGroup _ := ⟨knows_madeStandard _, fun _ => ⟨_, rfl⟩⟩
  ofAttribute _ := knows_madeStandard _
  ofAttributeGroup _ := knows_madeStandard _
  member _ _ _ := trivial
  builtin _ _ _ := trivial
  atomic _ := trivial
  list _ := trivial
  union _ _ _ := trivial
  restrict _ _ := trivial
  written _ := trivial
  remarked _ _ _ := trivial
  nullable _ := trivial
  either _ _ := trivial
  both _ _ := trivial
  anything := trivial
  choice hb _ _ hc := ⟨⟨_, _, hc⟩, fun P => isSchema_choice? (fun branch hm choice hchoice =>
    ((hb branch hm).choices choice hchoice).2 P) hc⟩
  object _ _ := trivial

/-- Whatever complex type is collected, however deep its bases and groups may be expanded, no two
slots have one name, and the constraints are those of choices, and references. -/
theorem yields_isMade (depth : Nat) (site : Site) (type : ComplexType) :
    Yields (collectComplex context (expansions context depth) site .everything {} type)
      Shape.IsMade :=
  (isKept_madeStandard.collectComplex (isKept_madeStandard.expands_expansions depth) site
    .everything .empty type (knows_madeStandard _)).mono fun _ h =>
      ⟨h.nodup, h.choices, fun reference hr => (h.groups reference hr).2⟩

variable {depth : Nat} {site : Site} {type : ComplexType} {s t : ConversionState} {shape : Shape}

/-- A complex type that is converted has character data if its content has some over a simple type,
and only if there is simple content on the way to its bases. Its slots have different names. All of
this is rendered, each member with its own schema and no name asked for twice, if and only if no slot
has the name that the options give to character data; and if one has, the character data is what is
lost. -/
theorem rendered_iff
    (h : run (collectComplex context (expansions context depth) site .everything {} type) s =
      (.ok shape, t)) :
    (type.content.HasText context.linkage context.linkage.IsSimpleName site.scope →
      shape.text.isSome = true) ∧
    (shape.text.isSome = true →
      type.content.HasText context.linkage (fun _ _ => True) site.scope) ∧
    shape.names.Nodup ∧
    (shape.Renders context.options.textProperty (objectSchema context shape) ↔
      ¬ shape.HidesText context.options.textProperty) ∧
    (shape.HidesText context.options.textProperty →
      (objectSchema context shape).described.Perm (shape.slots.map fun e => (e.1, e.2.schema)) ∧
      (objectSchema context shape).demanded =
        context.options.textProperty :: shape.requiredNames) := by
  have hmade := yields_isMade depth site type s t shape h
  have htext := givesText_collectComplex (expandsText_expansions depth) site .everything {} type
    s t shape h
  exact ⟨fun ht => htext.there (.inr ht), fun ht => (htext.origin ht).resolve_left (by simp),
    hmade.nodup, hmade.renders_iff, hmade.of_hidesText⟩

/-- With the usual name for character data nothing is lost, as long as names are names. -/
theorem renders_of_isSound (hsound : context.IsSound) (hk : formStandard.Knows type.details)
    (h : run (collectComplex context (expansions context depth) site .everything {} type) s =
      (.ok shape, t)) :
    shape.Renders context.options.textProperty (objectSchema context shape) := by
  have hslots := (hsound.isKept.collectComplex (hsound.isKept.expands_expansions depth) site
    .everything .empty type hk s t shape h).slots
  refine (yields_isMade depth site type s t shape h).renders_iff.2 fun hhides => ?_
  obtain ⟨entry, he, hname⟩ := List.mem_map.1 hhides.2
  exact (hslots entry he).1 (hname.trans hsound.text)

/-- A batch without declarations in which character data gets this name. -/
def bareNaming (textProperty : String) : Context := { bare with options := { textProperty } }

/-- Character data beside an attribute that is required. -/
def measured : ComplexType :=
  ⟨.simple ⟨QName.xsdSpace, "string"⟩ .extension [],
    [.declared ⟨⟨"", "v"⟩, false, none, none, none, none⟩ .required], false, false⟩

/-- What the type is converted to. -/
def measuredAs (textProperty : String) : Except Problem Shape × ConversionState :=
  run (collectComplex (bareNaming textProperty) (expansions (bareNaming textProperty) 0)
    ⟨bare.file, ""⟩ .everything {} measured) {}

theorem names_measuredAs :
    (measuredAs "#text").1.toOption.map Shape.names = some ["v"] ∧
      (measuredAs "v").1.toOption.map Shape.names = some ["v"] := by
  decide +kernel

theorem exists_of_names_measuredAs {textProperty : String}
    (h : (measuredAs textProperty).1.toOption.map Shape.names = some ["v"]) :
    ∃ shape t, measuredAs textProperty = (.ok shape, t) ∧ shape.names = ["v"] := by
  generalize measuredAs textProperty = r at h ⊢
  obtain ⟨result, t⟩ := r
  cases result with
  | error problem => cases h
  | ok shape => exact ⟨shape, t, rfl, Option.some.inj h⟩

theorem rendered_iff_measured :
    (∃ shape t, measuredAs "#text" = (.ok shape, t) ∧ shape.text.isSome = true ∧
      shape.Renders "#text" (objectSchema (bareNaming "#text") shape)) ∧
    ∃ shape t, measuredAs "v" = (.ok shape, t) ∧ shape.text.isSome = true ∧
      ¬ shape.Renders "v" (objectSchema (bareNaming "v") shape) := by
  constructor
  · obtain ⟨shape, t, h, hnames⟩ := exists_of_names_measuredAs names_measuredAs.1
    obtain ⟨htext, -, -, hiff, -⟩ := rendered_iff h
    refine ⟨shape, t, h, htext (.own (.inl rfl)), hiff.2 fun hhides => ?_⟩
    exact absurd (hnames ▸ hhides.2) (by decide)
  · obtain ⟨shape, t, h, hnames⟩ := exists_of_names_measuredAs names_measuredAs.2
    obtain ⟨htext, -, -, hiff, -⟩ := rendered_iff h
    have ht := htext (.own (.inl rfl))
    refine ⟨shape, t, h, ht, fun hr => hiff.1 hr ⟨ht, ?_⟩⟩
    rw [hnames]
    decide

end Conversion

end Crosswalk
