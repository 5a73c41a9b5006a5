import Crosswalk.Proofs.Conversion.Links
import Crosswalk.Proofs.Json.Pointer

/-!
# The members of a document

The definitions of a document are those that were converted, and its properties the elements and
the references to types that `Document.properties` lists, whatever keywords stand beside them.
-/

namespace Crosswalk

open Json

namespace Document

variable {options : Options} {source identifier : String} {description : Option String}
  {converted : Converted}

/-- The members of a document, but for its description and an option: those that a later part has
go before those of an earlier one. -/
theorem field?_assemble_parts {key : String}
    (h : key ∉ ["description", "additionalProperties"]) :
    (assemble options source identifier description converted).schema.field? key =
      ((Table.find? (Table.ofList (propertyKeywords (properties converted))) key).or
        (Table.find? (Table.ofList (if converted.definitions.isEmpty then []
          else [("definitions", Json.object converted.definitions)])) key)).or
        (Table.find? (Table.ofList [
          ("$schema", Json.string dialect), ("$id", .string (Percent.encodePath identifier)),
          ("title", .string ("JSON Schema generated from " ++ source)),
          ("type", .string "object")]) key) := by
  simp only [List.mem_cons, List.not_mem_nil, or_false, not_or] at h
  have hdescription : Table.find? (Table.ofList (Conversion.descriptionOf description)) key =
      none :=
    Table.find?_ofList_eq_none (by cases description <;> simp [Conversion.descriptionOf, h])
  have hclosed : Table.find? (Table.ofList
      (if options.isClosed then [("additionalProperties", Json.bool false)] else [])) key = none :=
    Table.find?_ofList_eq_none (by split <;> simp [h])
  simp only [assemble, Json.ofFields, field?_object, Table.find?_ofList_append, hdescription,
    hclosed, Option.none_or, Option.or_assoc]

/-- A member of a document that is neither fixed nor an option is among its sections. -/
theorem field?_assemble {key : String}
    (h : key ∉ ["$schema", "$id", "title", "type", "description", "additionalProperties"]) :
    (assemble options source identifier description converted).schema.field? key =
      (Table.find? (Table.ofList (propertyKeywords (properties converted))) key).or
        (Table.find? (Table.ofList (if converted.definitions.isEmpty then []
          else [("definitions", Json.object converted.definitions)])) key) := by
  simp only [List.mem_cons, List.not_mem_nil, or_false, not_or] at h
  rw [field?_assemble_parts (by simp [h])]
  exact (congrArg _ (Table.find?_ofList_eq_none (by simp [h]))).trans Option.or_none

/-- A document names itself by its encoded identifier. -/
theorem field?_id_assemble :
    (assemble options source identifier description converted).schema.field? "$id" =
      some (.string (Percent.encodePath identifier)) := by
  have hproperties : Table.find? (Table.ofList (propertyKeywords (properties converted)))
      "$id" = none :=
    Table.find?_ofList_eq_none (by unfold propertyKeywords; split <;> simp)
  have hdefinitions : Table.find? (Table.ofList (if converted.definitions.isEmpty then []
      else [("definitions", Json.object converted.definitions)])) "$id" = none :=
    Table.find?_ofList_eq_none (by split <;> simp)
  rw [field?_assemble_parts (by decide), hproperties, hdefinitions, Option.none_or, Option.none_or]
  exact Table.find?_ofList_of_mem (by simp) (by simp)

/-- The definitions of a document. -/
def definitions (document : Document) : Table String Json :=
  ((document.schema.field? "definitions").bind Json.fields?).getD []

theorem definitions_assemble :
    (assemble options source identifier description converted).definitions =
      converted.definitions := by
  have hproperties : Table.find? (Table.ofList (propertyKeywords (properties converted)))
      "definitions" = none :=
    Table.find?_ofList_eq_none (by unfold propertyKeywords; split <;> simp)
  rw [definitions, field?_assemble (by decide), hproperties, Option.none_or]
  cases converted.definitions with
  | nil => simp [Table.ofList]
  | cons e rest => simp [Table.ofList, Table.find?_cons, Json.fields?]

theorem member?_eq_definitions (document : Document) (name : String) :
    document.schema.member? "definitions" name = Table.find? document.definitions name := by
  rw [Json.member?, definitions]
  cases (document.schema.field? "definitions").bind Json.fields? <;> rfl

theorem member?_definitions (name : String) :
    (assemble options source identifier description converted).schema.member? "definitions" name =
      Table.find? converted.definitions name := by
  rw [member?_eq_definitions, definitions_assemble]

theorem member?_properties (name : String) :
    (assemble options source identifier description converted).schema.member? "properties" name =
      Table.find? (properties converted) name := by
  have hdefinitions : Table.find? (Table.ofList (if converted.definitions.isEmpty then []
      else [("definitions", Json.object converted.definitions)])) "properties" = none :=
    Table.find?_ofList_eq_none (by split <;> simp)
  rw [Json.member?, field?_assemble (by decide), hdefinitions, Option.or_none, propertyKeywords]
  cases properties converted with
  | nil => simp [Table.ofList]
  | cons e rest =>
      have hkey : Table.find? (Table.ofList [("properties", Json.object (e :: rest)),
          ("anyOf", .array (Shape.presence (Table.keys (e :: rest))))]) "properties" =
          some (.object (e :: rest)) := Table.find?_ofList_of_mem (by simp) (by simp)
      rw [List.isEmpty_cons, if_neg Bool.false_ne_true, hkey]
      simp [Json.fields?]

/-- A global element is among the properties, if not by its own schema. -/
theorem mem_keys_properties {name : String} :
    name ∈ Table.keys (properties converted) ↔
      name ∈ converted.elements.map (·.1) ∨ name ∈ converted.types := by
  have hfold : ∀ (types : List String) (table : Table String Json),
      name ∈ Table.keys (types.foldl (fun properties name =>
        if Table.contains properties name then properties
        else Table.insert properties name (Link.schema (Link.text none "definitions" name)))
          table) ↔ name ∈ Table.keys table ∨ name ∈ types := by
    intro types
    induction types with
    | nil => simp
    | cons type rest ih =>
        intro table
        rw [List.foldl_cons, ih, List.mem_cons]
        split
        · next hc =>
            have := Table.contains_iff.1 hc
            grind
        · rw [Table.keys_insert]
          grind
  rw [properties, hfold, Table.mem_keys_ofList]

/-- A property of the root is a global element, or the reference to a type. -/
theorem mem_properties {entry : String × Json} (h : entry ∈ properties converted) :
    entry ∈ converted.elements ∨ ∃ name ∈ converted.types,
      entry = (name, Link.schema (Link.text none "definitions" name)) := by
  refine List.foldlRecOn (motive := fun table => ∀ entry ∈ table, entry ∈ converted.elements ∨
    ∃ name ∈ converted.types, entry = (name, Link.schema (Link.text none "definitions" name)))
    converted.types _ (fun entry h => .inl (Table.mem_ofList h))
    (fun table ih name hn entry h => ?_) entry h
  split at h
  · exact ih entry h
  · rcases Table.mem_insert h with rfl | h
    · exact .inr ⟨name, hn, rfl⟩
    · exact ih entry h

/-- Under a name there is the element of the name, or else the reference to the type. -/
theorem find?_properties (name : String) : Table.find? (properties converted) name =
    (Table.find? (Table.ofList converted.elements) name).or
      (if name ∈ converted.types then some (Link.schema (Link.text none "definitions" name))
        else none) := by
  have hfold : ∀ (types : List String) (table : Table String Json),
      Table.find? (types.foldl (fun properties name =>
        if Table.contains properties name then properties
        else Table.insert properties name (Link.schema (Link.text none "definitions" name)))
          table) name = (Table.find? table name).or
            (if name ∈ types then some (Link.schema (Link.text none "definitions" name))
              else none) := by
    intro types
    induction types with
    | nil => exact fun table => (Option.or_none).symm
    | cons type rest ih =>
        intro table
        rw [List.foldl_cons, ih]
        by_cases heq : name = type
        · subst heq
          cases hf : Table.find? table name with
          | some schema => simp [Table.contains, hf]
          | none => simp [Table.contains, hf]
        · have hsame : Table.find? (if Table.contains table type then table
              else Table.insert table type (Link.schema (Link.text none "definitions" type))) name =
                Table.find? table name := by
            split
            · rfl
            · exact Table.find?_insert_of_ne _ _ heq
          simp [hsame, heq]
  exact hfold converted.types _

theorem sorted_properties (converted : Converted) : Table.Sorted (properties converted) := by
  refine List.foldlRecOn converted.types _ (Table.sorted_ofList _) fun table h name _ => ?_
  split
  · exact h
  · exact h.insert _ _

/-- Neither the order of the elements matters, nor that of the types. -/
theorem properties_perm {other : Converted} (he : converted.elements.Perm other.elements)
    (hn : (converted.elements.map (·.1)).Nodup) (ht : converted.types.Perm other.types) :
    properties converted = properties other :=
  (sorted_properties _).ext (sorted_properties _) fun name => by
    rw [find?_properties, find?_properties, Table.ofList_perm he hn]
    simp only [ht.mem_iff]

theorem assemble_congr {other : Converted} (hd : converted.definitions = other.definitions)
    (hp : properties converted = properties other) :
    assemble options source identifier description converted =
      assemble options source identifier description other := by
  unfold assemble
  rw [hd, hp]

/-- The links of a document are those of its definitions and elements, and those to its types. -/
theorem linksSatisfy_assemble {P : String → Prop} (hd : MembersAre P converted.definitions)
    (he : ∀ entry ∈ converted.elements, IsSchema P entry.2)
    (ht : ∀ name ∈ converted.types, P (Link.text none "definitions" name)) :
    LinksSatisfy P
      (assemble options source identifier description converted).schema := by
  have hproperties : MembersAre P (properties converted) := by
    refine List.foldlRecOn converted.types _
      (MembersAre.ofList fun entry h => (he entry h).member entry.1) fun table h name hn => ?_
    split
    · exact h
    · exact h.insert _ ((isSchema_link (ht name hn)).member name)
  refine (isSchema_ofFields (.append (.append (.append (.append ?_ ?_) ?_) ?_) ?_)).links
  · exact .cons (.of_ne (by decide) (linksSatisfy_string _)) (.cons (.of_ne (by decide)
      (linksSatisfy_string _)) (.cons (.of_ne (by decide) (linksSatisfy_string _))
        (.cons (.of_ne (by decide) (linksSatisfy_string _)) .nil)))
  · exact Conversion.membersAre_descriptionOf description
  · split
    · exact .nil
    · exact .cons (.of_ne (by decide) (linksSatisfy_object.2 hd)) .nil
  · unfold propertyKeywords
    split
    · exact .nil
    · exact .cons (.of_ne (by decide) (linksSatisfy_object.2 hproperties))
        (.cons (.of_ne (by decide) (Conversion.linksSatisfy_presence _)) .nil)
  · split
    · exact .cons (.of_ne (by decide) (linksSatisfy_bool _)) .nil
    · exact .nil

end Document

end Crosswalk
