import Crosswalk.Proofs.Batch

/-!
# The definitions of a document

Types and model groups are different things to a schema, and have names of their own; in a document
their definitions stand side by side. The key of a group begins with `group.`, and a type may have
such a name as well. Only then are two definitions under one key, and only one of them is left. In
every other file each declaration has its definition, and every link to it leads there.
-/

namespace Crosswalk

open Json Conversion

namespace Batch

variable {options : Options} {files : List (String × String)} {batch : Batch}

/-- The declarations of a file whose definitions are written, by key. -/
def definitionKeys (context : Context) : List String :=
  (context.file.schema.types.map fun type => type.name.name) ++
    (reusedGroups context).map fun group => groupKey group.name.name

/-- No type of the file has the key of a group that is written into its document. -/
def Separate (context : Context) : Prop :=
  ∀ type ∈ context.file.schema.types, ∀ group ∈ reusedGroups context,
    type.name.name ≠ groupKey group.name.name

instance (context : Context) : Decidable (Separate context) := by
  unfold Separate
  infer_instance

theorem groupKey_injective : Function.Injective groupKey :=
  fun _ _ h => String.append_right_inj _ |>.1 h

/-- Declarations of one namespace that have different names have different local names. -/
theorem nodup_local {α : Type} {name : α → QName} {space : String} {declarations : List α}
    (hs : ∀ d ∈ declarations, (name d).space = space) (hn : (declarations.map name).Nodup) :
    (declarations.map fun d => (name d).name).Nodup := by
  rw [List.nodup_map_iff_inj_on (List.Nodup.of_map _ hn)]
  intro a ha b hb heq
  have hname : name a = name b := by
    have := (hs a ha).trans (hs b hb).symm
    cases hna : name a
    cases hnb : name b
    simp_all
  exact List.inj_on_of_nodup_map hn ha hb hname

theorem nodup_reusedKeys {context : Context}
    (h : (context.file.schema.groups.map fun group => group.name.name).Nodup) :
    ((reusedGroups context).map fun group => groupKey group.name.name).Nodup := by
  have hnames := ((List.filter_sublist (l := context.file.schema.groups)
    (p := fun g => context.linkage.isReused g.name)).map fun group => group.name.name).nodup h
  have hkeys := hnames.map groupKey_injective
  rwa [List.map_map] at hkeys

/-- The definition under a key has the schema that the declaration was converted to, and every link
to it leads there. -/
def IsDefined (options : Options) (files : List (String × String)) (file : File)
    (convert : Conversion (String × Json)) (key : String) : Prop :=
  ∃ schema, outcome convert = .ok (key, schema) ∧
    ∀ source ∈ (catalogOf options files).files,
      Document.linked? (documentsOf options files) (documentOf options files source)
        (linkText (contextOf options files source) file "definitions" key) = some schema

/-- The definition under a key has the schema that the declaration was converted to. -/
def IsMember (options : Options) (files : List (String × String)) (file : File)
    (convert : Conversion (String × Json)) (key : String) : Prop :=
  ∃ schema, outcome convert = .ok (key, schema) ∧
    (documentOf options files file).schema.member? "definitions" key = some schema

theorem IsMember.isDefined {file : File} (hf : file ∈ (catalogOf options files).files)
    {convert : Conversion (String × Json)} {key : String}
    (h : IsMember options files file convert key) : IsDefined options files file convert key := by
  obtain ⟨schema, ho, hm⟩ := h
  exact ⟨schema, ho, fun source hs => linked?_linkText hs hf hm⟩

/-- There are as many definitions as types and groups written, and each leads to its own. -/
structure IsComplete (options : Options) (files : List (String × String)) (file : File) :
    Prop where
  count : (documentOf options files file).definitions.length =
    file.schema.types.length + (reusedGroups (contextOf options files file)).length
  types : ∀ type ∈ file.schema.types, IsDefined options files file
    (typeDefinition (contextOf options files file) type) type.name.name
  groups : ∀ group ∈ reusedGroups (contextOf options files file), IsDefined options files file
    (groupDefinition (contextOf options files file) group) (groupKey group.name.name)

variable (h : Succeeds options files batch) {file : File}
  (hf : file ∈ (catalogOf options files).files)
include h hf

/-- The groups that are written have different keys. -/
theorem Succeeds.nodup_groupKeys : ((reusedGroups (contextOf options files file)).map
    fun group => groupKey group.name.name).Nodup :=
  nodup_reusedKeys (nodup_local (isProper_catalogOf.read file hf).isLocal.groups
    (Linkage.nodup_of_ofCatalog .groups h.links hf))

theorem Succeeds.nodup_definitionKeys_iff :
    (definitionKeys (contextOf options files file)).Nodup ↔
      Separate (contextOf options files file) := by
  have htypes : (file.schema.types.map fun type => type.name.name).Nodup :=
    nodup_local (isProper_catalogOf.read file hf).isLocal.types
      (Linkage.nodup_of_ofCatalog .types h.links hf)
  have hreused := h.nodup_groupKeys hf
  rw [definitionKeys, List.nodup_append]
  constructor
  · intro hall type ht group hg
    exact hall.2.2 _ (List.mem_map.2 ⟨type, ht, rfl⟩) _ (List.mem_map.2 ⟨group, hg, rfl⟩)
  · intro hs
    refine ⟨htypes, hreused, fun a ha b hb => ?_⟩
    obtain ⟨type, ht, rfl⟩ := List.mem_map.1 ha
    obtain ⟨group, hg, rfl⟩ := List.mem_map.1 hb
    exact hs type ht group hg

/-- The entries that the definitions of a document were made of, and how they were made. -/
theorem Succeeds.exists_entries : ∃ entries : List (String × Json),
    (documentOf options files file).definitions = Table.ofList entries ∧
    entries.map (·.1) = definitionKeys (contextOf options files file) ∧
    (∀ type ∈ file.schema.types, ∃ schema, (type.name.name, schema) ∈ entries ∧
      outcome (typeDefinition (contextOf options files file) type) =
        .ok (type.name.name, schema)) ∧
    ∀ group ∈ reusedGroups (contextOf options files file), ∃ schema,
      (groupKey group.name.name, schema) ∈ entries ∧
      outcome (groupDefinition (contextOf options files file) group) =
        .ok (groupKey group.name.name, schema) := by
  obtain ⟨types, groups, hc⟩ := isConverted h.converts hf
  refine ⟨types ++ groups, ?_, ?_, fun type ht => ?_, fun group hg => ?_⟩
  · rw [documentOf_eq, Document.definitions_assemble, hc.definitions]
  · rw [List.map_append, hc.typeKeys, hc.groupKeys, definitionKeys]
  · obtain ⟨⟨key, schema⟩, he, ho⟩ := exists_entry hc.types ht
    obtain rfl := ((yields_typeDefinition (reaches_true _) type).outcome ho).1
    exact ⟨schema, List.mem_append_left _ he, ho⟩
  · obtain ⟨⟨key, schema⟩, he, ho⟩ := exists_entry hc.groups hg
    obtain rfl := ((yields_groupDefinition (reaches_true _) group).outcome ho).1
    exact ⟨schema, List.mem_append_right _ he, ho⟩

/-- The definition of a group has the schema of the group, even if a type has its key. -/
theorem Succeeds.isMember_group {group : NamedGroup}
    (hg : group ∈ reusedGroups (contextOf options files file)) : IsMember options files file
      (groupDefinition (contextOf options files file) group) (groupKey group.name.name) := by
  obtain ⟨types, groups, hc⟩ := isConverted h.converts hf
  obtain ⟨⟨key, schema⟩, he, ho⟩ := exists_entry hc.groups hg
  obtain rfl := ((yields_groupDefinition (reaches_true _) group).outcome ho).1
  have hkeys : (groups.map (·.1)).Nodup := hc.groupKeys ▸ h.nodup_groupKeys hf
  refine ⟨schema, ho, ?_⟩
  rw [documentOf_eq, Document.member?_definitions, hc.definitions, Table.find?_ofList_append,
    Table.find?_ofList_of_mem hkeys he, Option.some_or]

/-- If no type has the key of a group, every definition has the schema of its declaration. -/
theorem Succeeds.isMember (hs : Separate (contextOf options files file)) :
    (∀ type ∈ file.schema.types, IsMember options files file
      (typeDefinition (contextOf options files file) type) type.name.name) ∧
    ∀ group ∈ reusedGroups (contextOf options files file), IsMember options files file
      (groupDefinition (contextOf options files file) group) (groupKey group.name.name) := by
  obtain ⟨entries, hd, hkeys, types, groups⟩ := h.exists_entries hf
  rw [← h.nodup_definitionKeys_iff hf, ← hkeys] at hs
  have member : ∀ {entry : String × Json}, entry ∈ entries →
      (documentOf options files file).schema.member? "definitions" entry.1 = some entry.2 := by
    intro entry he
    rw [Document.member?_eq_definitions, hd]
    exact Table.find?_ofList_of_mem hs he
  refine ⟨fun type ht => ?_, fun group hg => ?_⟩
  · obtain ⟨schema, he, ho⟩ := types type ht
    exact ⟨schema, ho, member he⟩
  · obtain ⟨schema, he, ho⟩ := groups group hg
    exact ⟨schema, ho, member he⟩

/-- The definitions of a document are all there, each under its own key, if and only if no type has
the key of a group. -/
theorem Succeeds.isComplete_iff :
    Separate (contextOf options files file) ↔ IsComplete options files file := by
  obtain ⟨entries, hd, hkeys, -, -⟩ := h.exists_entries hf
  have hlength : entries.length =
      file.schema.types.length + (reusedGroups (contextOf options files file)).length := by
    have := congrArg List.length hkeys
    rwa [List.length_map, definitionKeys, List.length_append, List.length_map,
      List.length_map] at this
  constructor
  · intro hs
    obtain ⟨types, groups⟩ := h.isMember hf hs
    refine ⟨?_, fun type ht => (types type ht).isDefined hf,
      fun group hg => (groups group hg).isDefined hf⟩
    rw [hd, ← hlength]
    rw [← h.nodup_definitionKeys_iff hf, ← hkeys] at hs
    exact Table.length_ofList_eq_iff.2 hs
  · intro hcomplete
    rw [← h.nodup_definitionKeys_iff hf, ← hkeys]
    refine Table.length_ofList_eq_iff.1 ?_
    rw [← hd, hlength, hcomplete.count]

omit h hf in
/-- In the documents of a batch, the definitions of a file are all there, each under its own key and
found by every link to it, if and only if no type of the file has the key of a group. -/
theorem definitions_complete_iff (h : ofFiles options files = .ok batch) :
    ∀ file ∈ (catalogOf options files).files,
      documentOf options files file ∈ batch.documents ∧
        (Separate (contextOf options files file) ↔ IsComplete options files file) := by
  intro file hf
  have hs := succeeds_of_ofFiles h
  refine ⟨?_, hs.isComplete_iff hf⟩
  rw [hs.documents]
  exact List.mem_map.2 ⟨file, hf, rfl⟩

omit h hf in
theorem definitions_clashing : ∃ batch, ofFiles {} clashing = .ok batch ∧
    ∀ file ∈ (catalogOf {} clashing).files,
      documentOf {} clashing file ∈ batch.documents ∧
        (Separate (contextOf {} clashing file) ↔ IsComplete {} clashing file) := by
  obtain ⟨batch, h⟩ := ofFiles_clashing
  exact ⟨batch, h, definitions_complete_iff h⟩

end Batch

end Crosswalk
