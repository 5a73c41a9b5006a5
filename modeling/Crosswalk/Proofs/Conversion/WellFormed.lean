import Crosswalk.Proofs.Conversion.Kept
import Crosswalk.Proofs.Json.WellFormed
import Crosswalk.Proofs.Linkage.Resolution
import Crosswalk.Proofs.Schema.Unions
import Crosswalk.Xml.Event

/-!
# What is written is well-formed

The schemas that conversions write are well-formed if unions have members and the names of
declarations are names: what is put together from well-formed schemas is well-formed. Three things
could go wrong. A list of alternatives could be empty, but a choice without members writes none, an
enumeration that is empty is not taken, and a union without members is not read. A property could
be required twice, but no name has two slots, and no name is that of character data. And a link
could be none, but names are encoded in it, and that of a document does not begin with a slash.
-/

namespace Crosswalk

/-- Whether a text is a name. -/
def Xml.IsName (text : String) : Prop :=
  text.toList.head?.any isNameStart = true ∧ text.toList.all isNameChar = true

instance (text : String) : Decidable (Xml.IsName text) := inferInstanceAs (Decidable (_ ∧ _))

namespace Conversion

open Json

theorem IsRemark.isOfKind {member : String × Json} (h : IsRemark member) :
    IsOfKind (.of member.1) member.2 := by
  cases h <;> exact .of_anything rfl _

theorem isWellFormed_withKeywords {schema : Json} (h : IsWellFormed schema)
    {extras : Table String Json} (he : ∀ member ∈ extras, IsRemark member) :
    IsWellFormed (withKeywords schema extras) := by
  have hall : AreOfKind [("allOf", .array [schema])] :=
    .cons (.of_schemas rfl (by simp) (List.forall_mem_singleton.2 h)) .nil
  unfold withKeywords
  split
  · exact h
  · refine isWellFormed_object.2 (List.foldlRecOn extras _ ?_ fun fields hf member hm =>
      AreOfKind.insert hf _ (he member hm).isOfKind)
    split
    · split
      · exact hall
      · exact isWellFormed_object.1 h
    · exact hall

/-- Either of two schemas, or both of them, as the keyword says. -/
theorem isWellFormed_pair {keyword : String} (hk : ValueKind.of keyword = .schemas) {a b : Json}
    (ha : IsWellFormed a) (hb : IsWellFormed b) :
    IsWellFormed (.object [(keyword, .array [a, b])]) :=
  isWellFormed_schemas hk (by simp) (List.forall_mem_cons.2 ⟨ha, List.forall_mem_singleton.2 hb⟩)

/-! ### Simple types -/

/-- The schemas in a flattened simple type are well-formed, and it lists values and members if it
lists any. -/
def IsWritable : SimpleShape → Prop
  | .atomic _ facets => facets.enumeration ≠ some []
  | .list item _ => IsWellFormed item
  | .union members => members ≠ [] ∧ ∀ member ∈ members, IsWellFormed member

theorem IsWritable.restrict {shape : SimpleShape} (h : IsWritable shape) (facets : List Facet) :
    IsWritable (shape.restrict facets).1 := by
  cases shape with
  | atomic datatype inherited => exact FacetSet.enumeration_apply_ne h facets datatype.space
  | list item inherited => exact h
  | union members => exact h

theorem IsWritable.schema {shape : SimpleShape} (h : IsWritable shape) :
    IsWellFormed shape.schema := by
  cases shape with
  | atomic datatype facets => exact .object (FacetSet.areOfKind_keywords h datatype)
  | list item facets =>
      exact .object (((areOfKind_array h).withMapped "minItems" fun n _ => .length n).withMapped
        "maxItems" fun n _ => .length n)
  | union members => exact isWellFormed_schemas rfl h.1 h.2

/-! ### Shapes -/

theorem isWellFormed_slot {slot : Slot} (h : IsWellFormed slot.item) :
    IsWellFormed slot.schema := by
  have least : AreOfKind (if slot.bounds.isRequired then
      Table.insert (Table.ofList [("type", .string "array"), ("items", slot.item)]) "minItems"
        (.nat slot.bounds.least.toNat)
      else Table.ofList [("type", .string "array"), ("items", slot.item)]) := by
    split
    · exact (areOfKind_array h).insert "minItems" (.length _)
    · exact areOfKind_array h
  unfold Slot.schema
  split
  · cases slot.bounds.most with
    | bounded n => exact .object (least.insert "maxItems" (.length _))
    | unbounded => exact .object least
  · exact h

theorem isWellFormed_presence (names : List String) :
    ∀ item ∈ Shape.presence names, IsWellFormed item := by
  refine List.forall_mem_map.2 fun name _ => .object (AreOfKind.cons ?_ .nil)
  exact .names (List.nodup_singleton name)

/-- One name at least has to be listed as absent. -/
theorem isWellFormed_absence {names : List String} (h : names ≠ []) :
    IsWellFormed (Shape.absence names) :=
  isWellFormed_schemas rfl (fun hn => h (List.map_eq_nil_iff.1 hn)) (isWellFormed_presence names)

theorem nodup_requiredNames {shape : Shape} (h : shape.names.Nodup) :
    shape.requiredNames.Nodup :=
  h.sublist (List.filter_sublist.map _)

theorem isWellFormed_alternative {branch : Shape} (hn : branch.names.Nodup)
    (hc : ∀ choice ∈ branch.choices, IsWellFormed choice) (all : List String) (exclusive : Bool) :
    IsWellFormed (branch.alternative all exclusive) := by
  refine isWellFormed_ofFields (.append (.append ?_ ?_) ?_)
  · split
    · exact .cons (.names (nodup_requiredNames hn)) .nil
    · split
      · next h =>
          have hne : branch.names ≠ [] := by simpa using h
          exact .cons (.of_schemas rfl (fun hp => hne (List.map_eq_nil_iff.1 hp))
            (isWellFormed_presence _)) .nil
      · exact .nil
  · split
    · next h =>
        simp only [Bool.and_eq_true, Bool.not_eq_true', List.isEmpty_eq_false_iff] at h
        exact .cons (.schema (isWellFormed_absence h.2)) .nil
    · exact .nil
  · split
    · exact .nil
    · next h => exact .cons (.of_schemas rfl (by simpa using h) hc) .nil

/-- The constraint of a choice lists the branches that have members, if there are any. -/
theorem isWellFormed_choice? {branches : List Shape} (hn : ∀ branch ∈ branches, branch.names.Nodup)
    (hc : ∀ branch ∈ branches, ∀ choice ∈ branch.choices, IsWellFormed choice) {obliged : Bool}
    {choice : Json} (h : Shape.choice? branches obliged = some choice) : IsWellFormed choice := by
  unfold Shape.choice? at h
  simp only at h
  split at h
  · exact absurd h (by simp)
  · next hne =>
      obtain rfl := Option.some.inj h
      have hall : branches.flatMap Shape.names ≠ [] := by
        intro hnil
        rw [List.flatMap_eq_nil_iff] at hnil
        refine hne (List.isEmpty_iff.2 (List.map_eq_nil_iff.2 (List.filter_eq_nil_iff.2 ?_)))
        intro branch hb
        simp [hnil branch hb]
      refine isWellFormed_schemas (by split <;> rfl) (fun hnil => hne ?_) ?_
      · rw [(List.append_eq_nil_iff.1 hnil).1]
        rfl
      · refine List.forall_mem_append.2 ⟨List.forall_mem_map.2 fun branch hb => ?_, ?_⟩
        · have hbranch := (List.mem_filter.1 hb).1
          exact isWellFormed_alternative (hn branch hbranch) (hc branch hbranch) _ _
        · split
          · exact List.forall_mem_singleton.2
              (.object (AreOfKind.cons (.schema (isWellFormed_absence hall)) .nil))
          · exact fun _ hi => absurd hi List.not_mem_nil

/-- The schema of an object is well-formed if no slot has the name of character data. -/
theorem isWellFormed_shape {shape : Shape} {textProperty : String} (hnodup : shape.names.Nodup)
    (hslots : ∀ entry ∈ shape.slots, entry.1 ≠ textProperty ∧ IsWellFormed entry.2.item)
    (hconstraints : ∀ schema ∈ shape.choices ++ shape.groups, IsWellFormed schema)
    (htext : ∀ text ∈ shape.text, IsWellFormed text) (closed : Bool) :
    IsWellFormed (shape.schema closed textProperty) := by
  have properties : ∀ member ∈ shape.properties textProperty, IsWellFormed member.2 := by
    intro member hm
    rcases List.mem_append.1 (Table.mem_ofList hm) with hm | hm
    · obtain ⟨text, ht, rfl⟩ := List.mem_map.1 hm
      exact htext text (Option.mem_toList.1 ht)
    · obtain ⟨entry, he, rfl⟩ := List.mem_map.1 hm
      exact isWellFormed_slot (hslots entry he).2
  have required : (shape.requiredProperties textProperty).Nodup := by
    unfold Shape.requiredProperties
    cases shape.text with
    | none => exact nodup_requiredNames hnodup
    | some text =>
        refine List.nodup_cons.2 ⟨fun hm => ?_, nodup_requiredNames hnodup⟩
        obtain ⟨entry, he, hname⟩ := List.mem_map.1 hm
        exact (hslots entry (List.mem_filter.1 he).1).1 hname
  have constraints : AreOfKind shape.constraints := by
    have hlist : ∀ schemas, shape.choices ++ shape.groups = schemas → schemas ≠ [] →
        AreOfKind [("allOf", .array schemas)] := fun schemas hs hne =>
      .cons (.of_schemas rfl hne (hs ▸ hconstraints)) .nil
    unfold Shape.constraints
    split
    · exact .nil
    · next fields heq =>
        split
        · exact hlist _ heq (by simp)
        · exact isWellFormed_object.1 (hconstraints _ (heq ▸ List.mem_cons_self))
    · next hne _ => exact hlist _ rfl hne
  refine isWellFormed_ofFields (.append (.append (.append (.append ?_ ?_) ?_) ?_) constraints)
  · exact .cons (.anything _) .nil
  · split
    · exact .nil
    · exact .cons (.table properties) .nil
  · split
    · exact .nil
    · exact .cons (.names required) .nil
  · split
    · exact .cons (.schema (.bool _)) .nil
    · exact .nil

/-! ### The standard -/

/-- The property of character data, unless the options say otherwise. It is no name. -/
theorem not_isName_text : ¬ Xml.IsName "#text" := by decide

/-- Names are names, and unions have members. -/
def IsSoundDetail : Detail → Prop
  | .name name => Xml.IsName name.name
  | .union members => members ≠ []

/-- The standard for schemas that are well-formed. -/
def formStandard : Standard where
  detail := IsSoundDetail
  name name := name ≠ "#text"
  schema := IsWellFormed
  flat := IsWritable
  choice := IsWellFormed
  group := IsWellFormed

/-- With a prefix or without, the property of a name is not that of character data. -/
theorem propertyName_ne_text {name : QName} (h : Xml.IsName name.name) (context : Context)
    (scope : File) (qualified : Bool) :
    propertyName context scope name qualified ≠ "#text" := by
  have local_ne : name.name ≠ "#text" := fun heq => not_isName_text (heq ▸ h)
  unfold propertyName
  split
  · split
    · next p _ =>
        intro heq
        have hcolon : ':' ∈ (p ++ ":" ++ name.name).toList := by simp
        rw [heq] at hcolon
        exact absurd hcolon (by decide)
    · exact local_ne
  · exact local_ne

/-- What the files of a batch have to be for their schemas to be well-formed. -/
structure Context.IsSound (context : Context) : Prop where
  linked : context.linkage.IsLinked
  text : context.options.textProperty = "#text"
  identifier : ∀ file ∈ context.linkage.catalog.files, file.identifier.toList.head? ≠ some '/'
  details : ∀ file ∈ context.linkage.catalog.files, formStandard.Knows file.schema.details

namespace Context.IsSound

variable {context : Context} (h : context.IsSound)
include h

/-- A declaration that is found has details of its file, and links lead to it. -/
theorem found {α : Type} (row : Declarations.Row α) {details : α → List Detail}
    (hrow : ∀ {schema : Schema} {a : α}, a ∈ row.declared schema → details a ⊆ schema.details)
    {scope : File} {name : QName} {located : Located α}
    (hl : context.linkage.lookup? row scope name = some located) :
    formStandard.Knows (details located.declaration) ∧
      ∀ sectionName key, IsWellFormed (linkTo context located.file sectionName key) := by
  obtain ⟨hf, hd, -⟩ := h.linked.found hl
  refine ⟨fun d hdetail => h.details _ hf d (hrow hd hdetail), fun sectionName key =>
    isWellFormed_link (Uri.isReference_text (fun identifier hi => ?_) sectionName key)⟩
  split at hi
  · exact nomatch hi
  · exact Option.some.inj hi ▸ h.identifier _ hf

theorem isKept : formStandard.IsKept context where
  ofType hl := (h.found .types Schema.details_of_type hl).imp_right fun hw => hw _ _
  ofElement hl := (h.found .elements Schema.details_of_element hl).imp_right fun hw => hw _ _
  ofGroup hl := (h.found .groups Schema.details_of_group hl).imp_right fun hw _ => hw _ _
  ofAttribute hl := (h.found .attributes Schema.details_of_attribute hl).1
  ofAttributeGroup hl := (h.found .attributeGroups Schema.details_of_attributeGroup hl).1
  member hd scope qualified := propertyName_ne_text hd context scope qualified
  builtin _ _ := Datatype.isWellFormed_schemaOf?
  atomic _ := nofun
  list hi := hi
  union hd hlength hs := ⟨fun hnil => hd (List.eq_nil_of_length_eq_zero
    (hlength.symm.trans (congrArg List.length hnil))), hs⟩
  restrict hs := hs.restrict
  written hs := hs.schema
  remarked hs _ he := isWellFormed_withKeywords hs he
  nullable hs := isWellFormed_pair rfl hs (isWellFormed_type "null")
  either := isWellFormed_pair rfl
  both := isWellFormed_pair rfl
  anything := .bool true
  choice hb _ _ hc := isWellFormed_choice? (fun branch hm => (hb branch hm).nodup)
    (fun branch hm => (hb branch hm).choices) hc
  object hs closed := isWellFormed_shape hs.nodup (h.text ▸ hs.slots)
    (List.forall_mem_append.2 ⟨hs.choices, fun link hl => (hs.groups link hl).2⟩) hs.text closed

end Context.IsSound

end Conversion

end Crosswalk
