import Crosswalk.Proofs.Facet.Aspect
import Crosswalk.Proofs.Facet.Keywords
import Crosswalk.Proofs.Json.Links
import Crosswalk.Proofs.Number.Value
import Crosswalk.Proofs.Text.Uri

/-!
# Well-formed schemas

A schema is a truth value or an object, and the keywords of an object ask for values of certain
kinds: a list of alternatives has at least one, no property is required twice, a length is a natural
number, a link is a reference. `IsWellFormed` says that a value is a schema of this form, and so are
all schemas inside it. Members with other names may have any value; that a pattern is an expression
is not asked either.
-/

namespace Crosswalk

namespace Json

/-- The kinds of values that keywords have. -/
inductive ValueKind where
  /-- Schemas, of which there is at least one. -/
  | schemas
  /-- Schemas by name. -/
  | table
  | schema
  /-- Different names. -/
  | names
  /-- Values, of which there is at least one. -/
  | values
  /-- A natural number. -/
  | length
  | number
  /-- A number above zero. -/
  | divisor
  /-- A reference in ASCII characters. -/
  | reference
  | anything
  deriving DecidableEq

/-- The kind of values that a keyword has. -/
def ValueKind.of (keyword : String) : ValueKind :=
  match keyword with
  | "allOf" | "anyOf" | "oneOf" => .schemas
  | "properties" | "definitions" => .table
  | "items" | "not" | "additionalProperties" => .schema
  | "required" => .names
  | "enum" => .values
  | "minLength" | "maxLength" | "minItems" | "maxItems" => .length
  | "minimum" | "maximum" | "exclusiveMinimum" | "exclusiveMaximum" => .number
  | "multipleOf" => .divisor
  | "$id" | "$ref" => .reference
  | _ => .anything

mutual

/-- A truth value, or an object with members of the kinds that their keywords have. -/
inductive IsWellFormed : Json → Prop
  | bool (b : Bool) : IsWellFormed (.bool b)
  | object {fields : List (String × Json)} :
      (∀ member ∈ fields, IsOfKind (.of member.1) member.2) → IsWellFormed (.object fields)

/-- A value of a kind, in which all schemas are well-formed. -/
inductive IsOfKind : ValueKind → Json → Prop
  | schemas {items : List Json} :
      items ≠ [] → (∀ item ∈ items, IsWellFormed item) → IsOfKind .schemas (.array items)
  | table {fields : List (String × Json)} :
      (∀ member ∈ fields, IsWellFormed member.2) → IsOfKind .table (.object fields)
  | schema {value : Json} : IsWellFormed value → IsOfKind .schema value
  | names {names : List String} : names.Nodup → IsOfKind .names (.strings names)
  | values {items : List Json} : items ≠ [] → IsOfKind .values (.array items)
  | length (n : Nat) : IsOfKind .length (.nat n)
  | number (n : Number) : IsOfKind .number (.number n)
  | divisor {n : Number} : 0 < n.value → IsOfKind .divisor (.number n)
  | reference {text : String} : Uri.IsReference text → (∀ c ∈ text.toList, c.toNat < 128) →
      IsOfKind .reference (.string text)
  | anything (value : Json) : IsOfKind .anything value

end

/-- Members of the kinds that their keywords have. -/
def AreOfKind (fields : List (String × Json)) : Prop :=
  ∀ member ∈ fields, IsOfKind (.of member.1) member.2

theorem isWellFormed_object {fields : List (String × Json)} :
    IsWellFormed (.object fields) ↔ AreOfKind fields :=
  ⟨fun h => by cases h; assumption, .object⟩

/-! ### Single members -/

theorem IsOfKind.of_anything {keyword : String} (h : ValueKind.of keyword = .anything)
    (value : Json) : IsOfKind (.of keyword) value :=
  h ▸ .anything value

theorem IsOfKind.of_schemas {keyword : String} (h : ValueKind.of keyword = .schemas)
    {items : List Json} (hn : items ≠ []) (hw : ∀ item ∈ items, IsWellFormed item) :
    IsOfKind (.of keyword) (.array items) :=
  h ▸ .schemas hn hw

theorem IsOfKind.of_reference {keyword : String} (h : ValueKind.of keyword = .reference)
    {text : String} (ht : Uri.IsReference text) : IsOfKind (.of keyword) (.string text) :=
  h ▸ .reference ht ht.isAscii

namespace AreOfKind

theorem nil : AreOfKind [] := fun _ h => absurd h List.not_mem_nil

theorem cons {keyword : String} {value : Json} {rest : List (String × Json)}
    (h : IsOfKind (.of keyword) value) (hr : AreOfKind rest) :
    AreOfKind ((keyword, value) :: rest) :=
  List.forall_mem_cons.2 ⟨h, hr⟩

theorem append {first rest : List (String × Json)} (h : AreOfKind first) (hr : AreOfKind rest) :
    AreOfKind (first ++ rest) :=
  List.forall_mem_append.2 ⟨h, hr⟩

theorem ofList {fields : List (String × Json)} (h : AreOfKind fields) :
    AreOfKind (Table.ofList fields) := fun member hm => h member (Table.mem_ofList hm)

theorem insert {keywords : Table String Json} (h : AreOfKind keywords) (keyword : String)
    {value : Json} (hv : IsOfKind (.of keyword) value) :
    AreOfKind (Table.insert keywords keyword value) :=
  Table.forall_mem_insert h hv

/-- A keyword that stands only if it has a value. -/
theorem withKeyword {keywords : Table String Json} (h : AreOfKind keywords) (keyword : String)
    {value : Option Json} (hv : ∀ v, value = some v → IsOfKind (.of keyword) v) :
    AreOfKind (Datatype.withKeyword keywords keyword value) := by
  cases value with
  | none => exact h
  | some v => exact h.insert keyword (hv v rfl)

/-- The same, with a value that was mapped. -/
theorem withMapped {α : Type} {keywords : Table String Json} (h : AreOfKind keywords)
    (keyword : String) {value : Option α} {json : α → Json}
    (hv : ∀ a, value = some a → IsOfKind (.of keyword) (json a)) :
    AreOfKind (Datatype.withKeyword keywords keyword (value.map json)) := by
  refine h.withKeyword keyword fun v hv' => ?_
  obtain ⟨a, ha, rfl⟩ := Option.map_eq_some_iff.1 hv'
  exact hv a ha

end AreOfKind

theorem isWellFormed_ofFields {fields : List (String × Json)} (h : AreOfKind fields) :
    IsWellFormed (.ofFields fields) :=
  .object h.ofList

theorem isWellFormed_link {link : String} (h : Uri.IsReference link) :
    IsWellFormed (Link.schema link) :=
  .object (AreOfKind.cons (.of_reference rfl h) .nil)

/-- An object with one list of schemas. -/
theorem isWellFormed_schemas {keyword : String} (h : ValueKind.of keyword = .schemas)
    {items : List Json} (hn : items ≠ []) (hw : ∀ item ∈ items, IsWellFormed item) :
    IsWellFormed (.object [(keyword, .array items)]) :=
  .object (AreOfKind.cons (.of_schemas h hn hw) .nil)

theorem isWellFormed_type (name : String) : IsWellFormed (.object [("type", .string name)]) :=
  .object (AreOfKind.cons (.of_anything rfl _) .nil)

/-- The keywords of an array begin with its type and the schema of its items. -/
theorem areOfKind_array {item : Json} (h : IsWellFormed item) :
    AreOfKind (Table.ofList [("type", .string "array"), ("items", item)]) :=
  .ofList (.cons (.of_anything rfl _) (.cons (.schema h) .nil))

end Json

open Json

/-! ### Datatypes and facets -/

theorem Datatype.areOfKind_keywords (d : Datatype) : AreOfKind d.keywords :=
  ((AreOfKind.nil.insert "type" (.anything _)).withMapped "format"
    fun _ _ => .anything _).withMapped "contentEncoding" fun _ _ => .anything _

theorem Datatype.isWellFormed_schemaOf? {name : String} {schema : Json}
    (h : Datatype.schemaOf? name = some schema) : IsWellFormed schema := by
  unfold Datatype.schemaOf? at h
  split at h
  · exact Option.some.inj h ▸ .object AreOfKind.nil
  · obtain ⟨d, -, rfl⟩ := Option.map_eq_some_iff.1 h
    exact .object (((d.areOfKind_keywords.withMapped "pattern" fun _ _ => .anything _).withMapped
      "minimum" fun n _ => .number n).withMapped "maximum" fun n _ => .number n)

/-- The keywords of a type are of their kinds, unless its enumeration is empty. -/
theorem FacetSet.areOfKind_keywords {s : FacetSet} (h : s.enumeration ≠ some []) (d : Datatype) :
    AreOfKind (s.keywords d) :=
  (forall_mem_keywords_iff _ s d).2 {
    type := .anything _
    format := fun _ _ => .anything _
    encoding := fun _ _ => .anything _
    minLength := fun n _ => .length n
    maxLength := fun n _ => .length n
    patterns := fun _ rest _ => ⟨.anything _, fun hne => .schemas (by simpa using hne)
      (List.forall_mem_map.2 fun _ _ => .object (AreOfKind.cons (.anything _) .nil))⟩
    enumeration := fun values hv => .values fun hnil =>
      h (hv.trans (congrArg some (List.map_eq_nil_iff.1 hnil)))
    lower := fun b _ k _ => by split <;> exact .number k
    upper := fun b _ k _ => by split <;> exact .number k
    whole := fun _ => .divisor (by simp) }

/-- A step of facets never leaves an empty enumeration. -/
theorem FacetSet.enumeration_apply_ne {s : FacetSet} (h : s.enumeration ≠ some [])
    (facets : List Facet) (space : ValueSpace) :
    (s.apply facets space).1.enumeration ≠ some [] := by
  rw [apply_fst]
  change FacetStep.listing space s.enumeration (facets.filterMap (Facet.listed? space)) ≠ some []
  unfold FacetStep.listing
  split
  · next hl =>
      intro heq
      rw [Option.some.inj heq] at hl
      exact absurd hl (by simp)
  · exact h

end Crosswalk
