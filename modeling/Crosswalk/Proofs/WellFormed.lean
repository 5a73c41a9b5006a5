import Crosswalk.Proofs.Batch
import Crosswalk.Proofs.Conversion.WellFormed

/-!
# The documents of a batch are well-formed

A document is put together from the schemas of a file: those of its definitions, those of its
elements, and links to its types. All of them are well-formed, and so is the document, whatever was
declared in the files, as long as it has names.
-/

namespace Crosswalk

open Json Conversion

namespace Document

variable {options : Options} {source identifier : String} {description : Option String}
  {converted : Converted}

theorem isWellFormed_property (he : ∀ entry ∈ converted.elements, IsWellFormed entry.2) :
    ∀ entry ∈ properties converted, IsWellFormed entry.2 := by
  intro entry h
  rcases mem_properties h with h | ⟨name, -, rfl⟩
  · exact he entry h
  · have own : ∀ name ∈ (none : Option String), name.toList.head? ≠ some '/' := nofun
    exact isWellFormed_link (Uri.isReference_text own _ _)

/-- A document is well-formed if its definitions and elements are, and its name is a path. -/
theorem isWellFormed_assemble (hi : identifier.toList.head? ≠ some '/')
    (hd : ∀ entry ∈ converted.definitions, IsWellFormed entry.2)
    (he : ∀ entry ∈ converted.elements, IsWellFormed entry.2) :
    IsWellFormed (assemble options source identifier description converted).schema := by
  have hname : Uri.IsReference (Percent.encodePath identifier) :=
    Uri.isReference_of_isPath (Uri.isPath_encodePath hi)
  refine isWellFormed_ofFields (.append (.append (.append (.append ?_ ?_) ?_) ?_) ?_)
  · exact .cons (.anything _) (.cons (.of_reference rfl hname)
      (.cons (.anything _) (.cons (.anything _) .nil)))
  · exact fun member hm => (isRemark_descriptionOf description member hm).isOfKind
  · split
    · exact .nil
    · exact .cons (.table hd) .nil
  · unfold propertyKeywords
    split
    · exact .nil
    · next hne =>
        refine .cons (.table (isWellFormed_property he)) (.cons (.of_schemas rfl (fun hnil => ?_)
          (isWellFormed_presence _)) .nil)
        have hkeys := List.map_eq_nil_iff.1 hnil
        exact hne (List.isEmpty_iff.2 (List.map_eq_nil_iff.1 hkeys))
  · split
    · exact .cons (.schema (.bool _)) .nil
    · exact .nil

end Document

namespace Batch

variable {options : Options} {files : List (String × String)} {batch : Batch} {file : File}

/-- The names that the files of a batch declare are names. -/
def AreNamed (options : Options) (files : List (String × String)) : Prop :=
  ∀ file ∈ (catalogOf options files).files, ∀ name ∈ file.schema.declaredNames,
    Xml.IsName name.name

/-- What is known of the files of a batch suffices for well-formed schemas. -/
theorem isSound_contextOf (ht : options.textProperty = "#text") (hn : AreNamed options files)
    (file : File) : (contextOf options files file).IsSound where
  linked := Linkage.isLinked_ofCatalog _ _
  text := ht
  identifier file hf := by
    rw [(Registry.IsProper.collect options files).identifier hf]
    exact Uri.head?_identifierOf options file.filename
  details file hf d hd := by
    cases d with
    | name name => exact hn file hf name (Schema.mem_declaredNames.2 hd)
    | union members => exact (isProper_catalogOf.read file hf).areInhabited _ hd

theorem isWellFormed_documentOf (ht : options.textProperty = "#text") (hn : AreNamed options files)
    (h : Converts options files) (hf : file ∈ (catalogOf options files).files) :
    IsWellFormed (documentOf options files file).schema := by
  have sound := isSound_contextOf ht hn file
  have hknown := sound.details file hf
  obtain ⟨types, groups, hc⟩ := isConverted h hf
  rw [documentOf_eq]
  refine Document.isWellFormed_assemble (sound.identifier file hf) ?_ ?_
  · rw [hc.definitions]
    intro entry he
    rcases List.mem_append.1 (Table.mem_ofList he) with he | he
    · obtain ⟨type, hm, ho⟩ := exists_entry hc.types.flip he
      exact ((sound.isKept.typeDefinition fun d hd =>
        hknown d (Schema.details_of_type hm hd)).outcome ho).2
    · obtain ⟨group, hm, ho⟩ := exists_entry hc.groups.flip he
      exact ((sound.isKept.groupDefinition fun d hd =>
        hknown d (Schema.details_of_group (List.mem_filter.1 hm).1 hd)).outcome ho).2
  · intro entry he
    obtain ⟨element, hm, ho⟩ := exists_entry hc.elements.flip he
    exact ((sound.isKept.elementProperty fun d hd =>
      hknown d (Schema.details_of_element hm hd)).outcome ho).2

/-- Every document of a batch is well-formed, if the property of character data is the usual one and
the names that the files declare are names. -/
theorem documents_wellFormed (h : ofFiles options files = .ok batch)
    (ht : options.textProperty = "#text")
    (hn : ∀ file ∈ (catalogOf options files).files, ∀ name ∈ file.schema.declaredNames,
      Xml.IsName name.name) :
    ∀ document ∈ batch.documents, IsWellFormed document.schema := by
  have hs := succeeds_of_ofFiles h
  rw [hs.documents]
  intro document hd
  obtain ⟨file, hf, rfl⟩ := List.mem_map.1 hd
  exact isWellFormed_documentOf ht hn hs.converts hf

theorem documents_wellFormed_clashing : ∃ batch, ofFiles {} clashing = .ok batch ∧
    ∀ document ∈ batch.documents, IsWellFormed document.schema := by
  obtain ⟨batch, h⟩ := ofFiles_clashing
  refine ⟨batch, h, documents_wellFormed h rfl ?_⟩
  rw [catalogOf, collect_clashing]
  decide +kernel

end Batch

end Crosswalk
