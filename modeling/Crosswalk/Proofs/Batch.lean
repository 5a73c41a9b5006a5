import Crosswalk.Proofs.Catalog
import Crosswalk.Proofs.Conversion.File
import Crosswalk.Proofs.Document
import Crosswalk.Proofs.Linkage
import Crosswalk.Proofs.Reading
import Mathlib.Data.List.Permutation

/-!
# The documents of a batch

Between the files of a batch and its documents there are the catalog, the linkage and the
conversions. They are named here, and put together again: a link to a declaration leads from every
document of the batch to the member that was written for it. So no link of a batch is broken.
-/

namespace Crosswalk

open Json Conversion

namespace Batch

/-- The files of a batch that can be registered and read. -/
def catalogOf (options : Options) (files : List (String × String)) : Catalog :=
  (collect options files).1.close

/-- The linkage of these files. -/
def linkageOf (options : Options) (files : List (String × String)) : Linkage :=
  (Linkage.ofCatalog (catalogOf options files) options.resolution).1

/-- What the conversion of one of these files depends on. -/
def contextOf (options : Options) (files : List (String × String)) (file : File) : Context :=
  ⟨linkageOf options files, options, file⟩

/-- The document of one of these files. -/
def documentOf (options : Options) (files : List (String × String)) (file : File) : Document :=
  (convert options (linkageOf options files) file).1

/-- The documents of these files. -/
def documentsOf (options : Options) (files : List (String × String)) : List Document :=
  (catalogOf options files).files.map (documentOf options files)

/-- The conversion of each of these files reports nothing fatal. -/
def Converts (options : Options) (files : List (String × String)) : Prop :=
  ∀ file ∈ (catalogOf options files).files,
    ∀ p ∈ (convert options (linkageOf options files) file).2, p.isFatal = false

variable {options : Options} {files : List (String × String)} {batch : Batch}

theorem isProper_catalogOf : (catalogOf options files).IsProper :=
  Catalog.isProper_collect options files

theorem documentOf_eq (file : File) : documentOf options files file =
    Document.assemble options file.filename file.identifier file.schema.documentation
      (convertFile (contextOf options files file)).1 := rfl

/-- The documents of files, from what is collected of them. -/
theorem documentsOf_eq (options : Options) (files : List (String × String)) :
    documentsOf options files = (collect options files).1.close.files.map fun file =>
      (convert options (Linkage.ofCatalog (collect options files).1.close options.resolution).1
        file).1 := rfl

/-- The document of a file is found by its name. -/
theorem find?_documentsOf {file : File} (h : file ∈ (catalogOf options files).files) :
    (documentsOf options files).find?
      (fun d => d.identifier == (documentOf options files file).identifier) =
        some (documentOf options files file) := by
  refine Document.find?_identifier (List.mem_map.2 ⟨file, h, rfl⟩) fun d hd heq => ?_
  obtain ⟨other, ho, rfl⟩ := List.mem_map.1 hd
  rw [isProper_catalogOf.ofIdentifier other ho file h heq]

/-- A link written for a member of a file's document leads to it, from every document. -/
theorem followed?_linkText {source target : File} (hs : source ∈ (catalogOf options files).files)
    (ht : target ∈ (catalogOf options files).files) {sectionName name : String} {member : Json}
    (h : (documentOf options files target).schema.member? sectionName name = some member) :
    Document.followed? (documentsOf options files) (documentOf options files source)
      (linkText (contextOf options files source) target sectionName name) =
        some (documentOf options files target, member) := by
  unfold linkText
  split
  · next hown =>
      have hname : target.filename = source.filename := by simpa [isOwn, contextOf] using hown
      obtain rfl := isProper_catalogOf.ofFilename target ht source hs hname
      exact Document.followed?_own h
  · exact Document.followed?_other _ (documentOf options files target)
      (isProper_catalogOf.named target ht) (find?_documentsOf ht) h

theorem linked?_linkText {source target : File} (hs : source ∈ (catalogOf options files).files)
    (ht : target ∈ (catalogOf options files).files) {sectionName name : String} {member : Json}
    (h : (documentOf options files target).schema.member? sectionName name = some member) :
    Document.linked? (documentsOf options files) (documentOf options files source)
      (linkText (contextOf options files source) target sectionName name) = some member := by
  rw [Document.linked?_eq, followed?_linkText hs ht h]
  rfl

/-! ### The declarations of a file -/

theorem isConverted (h : Converts options files) {file : File}
    (hf : file ∈ (catalogOf options files).files) :
    ∃ types groups, IsConverted (contextOf options files file) types groups
      (convertFile (contextOf options files file)).1 :=
  isConverted_convertFile (h file hf)

theorem exists_definition (h : Converts options files) {file : File}
    (hf : file ∈ (catalogOf options files).files) {key : String}
    (hk : key ∈ file.schema.types.map (·.name.name) ∨
      key ∈ (reusedGroups (contextOf options files file)).map fun g => groupKey g.name.name) :
    ∃ member, (documentOf options files file).schema.member? "definitions" key = some member := by
  obtain ⟨types, groups, hc⟩ := isConverted h hf
  rw [documentOf_eq, Document.member?_definitions, hc.definitions, ← Option.isSome_iff_exists,
    ← Table.contains, Table.contains_ofList, List.map_append, List.mem_append, hc.typeKeys,
    hc.groupKeys]
  exact hk

theorem exists_property (h : Converts options files) {file : File}
    (hf : file ∈ (catalogOf options files).files) {name : String}
    (hn : name ∈ file.schema.elements.map (·.name.name)) :
    ∃ member, (documentOf options files file).schema.member? "properties" name = some member := by
  obtain ⟨types, groups, hc⟩ := isConverted h hf
  rw [documentOf_eq, Document.member?_properties, ← Option.isSome_iff_exists,
    ← Table.contains, Table.contains_iff, Document.mem_keys_properties, hc.elementKeys]
  exact .inl hn

/-! ### Links -/

/-- The links from a document of the batch. -/
abbrev Leads (options : Options) (files : List (String × String)) (file : File)
    (link : String) : Prop :=
  (Document.linked? (documentsOf options files) (documentOf options files file) link).isSome

theorem leads_linkText {source target : File} (hs : source ∈ (catalogOf options files).files)
    (ht : target ∈ (catalogOf options files).files) {sectionName name : String}
    (h : ∃ member, (documentOf options files target).schema.member? sectionName name =
      some member) :
    Leads options files source
      (linkText (contextOf options files source) target sectionName name) := by
  obtain ⟨member, hm⟩ := h
  exact Option.isSome_iff_exists.2 ⟨member, linked?_linkText hs ht hm⟩

/-- Every link to what the linkage finds leads somewhere. -/
theorem reaches_leads (h : Converts options files) {file : File}
    (hf : file ∈ (catalogOf options files).files) :
    Reaches (contextOf options files file) (Leads options files file) where
  type hl := by
    obtain ⟨ht, hd⟩ := Linkage.located_of_type? hl
    exact isSchema_link (leads_linkText hf ht
      (exists_definition h ht (.inl (List.mem_map.2 ⟨_, hd, rfl⟩))))
  element hl := by
    obtain ⟨ht, hd⟩ := Linkage.located_of_element? hl
    exact isSchema_link (leads_linkText hf ht
      (exists_property h ht (List.mem_map.2 ⟨_, hd, rfl⟩)))
  group hl hr := by
    obtain ⟨ht, hd⟩ := Linkage.located_of_group? hl
    exact isSchema_link (leads_linkText hf ht
      (exists_definition h ht (.inr (List.mem_map.2 ⟨_, List.mem_filter.2 ⟨hd, hr⟩, rfl⟩))))

/-- A property of the links to what the linkage finds, and of those to the types of the file, is one
of all links in its document. -/
theorem linksSatisfy_of_reaches (h : Converts options files) {file : File}
    (hf : file ∈ (catalogOf options files).files) {P : String → Prop}
    (hr : Reaches (contextOf options files file) P)
    (ht : ∀ name ∈ file.schema.types.map (·.name.name), P (Link.text none "definitions" name)) :
    LinksSatisfy P (documentOf options files file).schema := by
  obtain ⟨types, groups, hc⟩ := isConverted h hf
  rw [documentOf_eq]
  refine Document.linksSatisfy_assemble ?_ ?_ ?_
  · rw [hc.definitions]
    exact MembersAre.ofList fun entry he => (hc.definition_isSchema hr he).member entry.1
  · exact fun entry he => hc.element_isSchema hr he
  · rwa [hc.names, hc.typeKeys]

/-- The link to a definition of the document that it stands in. -/
theorem linkText_own (file : File) (name : String) :
    linkText (contextOf options files file) file "definitions" name =
      Link.text none "definitions" name := by
  rw [linkText, if_pos (by simp [isOwn, contextOf])]

theorem linksSatisfy_documentOf (h : Converts options files) {file : File}
    (hf : file ∈ (catalogOf options files).files) :
    LinksSatisfy (Leads options files file) (documentOf options files file).schema := by
  refine linksSatisfy_of_reaches h hf (reaches_leads h hf) fun name hn => ?_
  rw [← linkText_own]
  exact leads_linkText hf hf (exists_definition h hf (.inl hn))

/-! ### Batches that succeed -/

/-- What follows a checkpoint is reached without a fatal problem. -/
theorem checkpoint_bind {α : Type} {problems : List Problem}
    {next : Unit → Except (List Problem) α} {a : α}
    (h : (checkpoint problems >>= next) = .ok a) :
    (∀ p ∈ problems, p.isFatal = false) ∧ next () = .ok a := by
  unfold checkpoint at h
  split at h
  · exact nomatch h
  · next hany =>
      refine ⟨fun p hp => ?_, h⟩
      exact Bool.eq_false_iff.2 fun hfatal => hany (List.any_eq_true.2 ⟨p, hp, hfatal⟩)

/-- A batch that succeeds has got through all phases. -/
structure Succeeds (options : Options) (files : List (String × String)) (batch : Batch) :
    Prop where
  documents : batch.documents = documentsOf options files
  links : ∀ p ∈ (Linkage.ofCatalog (catalogOf options files) options.resolution).2,
    p.isFatal = false
  converts : Converts options files

theorem succeeds_of_ofFiles (h : ofFiles options files = .ok batch) :
    Succeeds options files batch := by
  obtain ⟨-, h⟩ := checkpoint_bind h
  obtain ⟨hlinks, h⟩ := checkpoint_bind h
  obtain ⟨hconverted, h⟩ := checkpoint_bind h
  obtain ⟨-, h⟩ := checkpoint_bind h
  rw [List.forall_mem_append] at hlinks hconverted
  refine ⟨?_, hlinks.2, fun file hf p hp => ?_⟩
  · rw [← Except.ok.inj h, documentsOf]
    exact List.map_map
  · refine hconverted.2 p (List.mem_flatMap.2 ⟨_, List.mem_map.2 ⟨file, hf, rfl⟩, hp⟩)

theorem checkpoint_eq_ok {problems : List Problem} (h : ∀ p ∈ problems, p.isFatal = false) :
    checkpoint problems = .ok () := by
  have hany : problems.any Problem.isFatal = false :=
    List.any_eq_false.2 fun p hp => Bool.eq_false_iff.1 (h p hp)
  rw [checkpoint, hany, if_neg Bool.false_ne_true]

/-- The problems met on the way to the documents. -/
def problemsOf (options : Options) (files : List (String × String)) : List Problem :=
  (collect options files).2 ++
    (Linkage.ofCatalog (catalogOf options files) options.resolution).2 ++
    (catalogOf options files).files.flatMap fun file =>
      (convert options (linkageOf options files) file).2

theorem isFatal_of_mem_brokenLinks {documents : List Document} {p : Problem}
    (h : p ∈ Document.brokenLinks documents) : p.isFatal = true := by
  obtain ⟨document, -, h⟩ := List.mem_flatMap.1 h
  obtain ⟨⟨path, link⟩, -, h⟩ := List.mem_filterMap.1 h
  dsimp only at h
  split at h
  · cases h
  · exact Option.some.inj h ▸ rfl

/-- The phases of a batch, with what they collect. -/
theorem ofFiles_eq : ofFiles options files = do
    checkpoint (collect options files).2
    checkpoint ((collect options files).2 ++
      (Linkage.ofCatalog (catalogOf options files) options.resolution).2)
    checkpoint (problemsOf options files)
    let broken := Document.brokenLinks (documentsOf options files)
    checkpoint (problemsOf options files ++ broken)
    return ⟨documentsOf options files, Problem.sortByFile (problemsOf options files ++ broken)⟩ := by
  have hdocuments : ((catalogOf options files).files.map
      (convert options (linkageOf options files))).map (·.1) = documentsOf options files :=
    List.map_map
  have hproblems : (collect options files).2 ++
      (Linkage.ofCatalog (catalogOf options files) options.resolution).2 ++
        ((catalogOf options files).files.map
          (convert options (linkageOf options files))).flatMap (·.2) =
            problemsOf options files := by
    rw [List.flatMap_map]
    rfl
  rw [← hdocuments, ← hproblems]
  rfl

/-- A batch succeeds if and only if nothing fatal is met and no link is broken, and then it has the
documents of its files, and as diagnostics whatever was met. -/
theorem ofFiles_eq_ok_iff : ofFiles options files = .ok batch ↔
    (∀ p ∈ problemsOf options files, p.isFatal = false) ∧
      Document.brokenLinks (documentsOf options files) = [] ∧
      batch = ⟨documentsOf options files, Problem.sortByFile (problemsOf options files)⟩ := by
  rw [ofFiles_eq]
  constructor
  · intro h
    obtain ⟨-, h⟩ := checkpoint_bind h
    obtain ⟨-, h⟩ := checkpoint_bind h
    obtain ⟨hfine, h⟩ := checkpoint_bind h
    obtain ⟨hlinks, h⟩ := checkpoint_bind h
    have hbroken : Document.brokenLinks (documentsOf options files) = [] :=
      List.eq_nil_iff_forall_not_mem.2 fun p hp => Bool.false_ne_true
        ((hlinks p (List.mem_append_right _ hp)).symm.trans (isFatal_of_mem_brokenLinks hp))
    rw [hbroken, List.append_nil] at h
    exact ⟨hfine, hbroken, (Except.ok.inj h).symm⟩
  · rintro ⟨hfine, hbroken, rfl⟩
    have hread := checkpoint_eq_ok fun p hp =>
      hfine p (List.mem_append_left _ (List.mem_append_left _ hp))
    have hlinked := checkpoint_eq_ok fun p hp => hfine p (List.mem_append_left _ hp)
    dsimp only
    rw [hbroken, List.append_nil, hread, hlinked, checkpoint_eq_ok hfine]
    rfl

/-- A file that refers twice to a group, with a type that has the key of the group. -/
def clashing : List (String × String) := [
  ("a.xsd", "<s:schema xmlns:s='http://www.w3.org/2001/XMLSchema'><s:group name='g'><s:all/>" ++
    "</s:group><s:complexType name='group.g'><s:all><s:group ref='g'/><s:group ref='g'/></s:all>" ++
    "</s:complexType></s:schema>")]

/-- The parts of the file. -/
def clashingParts : List Xml.Event :=
  Xml.schemaParts (Xml.elementParts "group" [("name", "g")] (Xml.elementParts "all" [] []) ++
    Xml.elementParts "complexType" [("name", "group.g")] (Xml.elementParts "all" []
      (Xml.elementParts "group" [("ref", "g")] [] ++ Xml.elementParts "group" [("ref", "g")] [])))

theorem collect_clashing :
    collect {} clashing = collectParts {} (fun _ => clashingParts) clashing :=
  collect_of_characters (Xml.toList_append_of
    (Xml.toList_append_of String.toList_ofList String.toList_ofList) String.toList_ofList)
    (by cbv)

theorem ok_of_isOk (h : (ofFiles options files).isOk = true) :
    ∃ batch, ofFiles options files = .ok batch := by
  cases hr : ofFiles options files with
  | ok batch => exact ⟨batch, rfl⟩
  | error problems => simp [hr, Except.isOk, Except.toBool] at h

/-! ### No broken links -/

/-- Every link of a batch leads to a member if its files can be converted. -/
theorem isSome_linked? (h : Converts options files) {document : Document}
    (hd : document ∈ documentsOf options files) {link : String × String}
    (hl : link ∈ Document.linksIn "" document.schema) :
    (Document.linked? (documentsOf options files) document link.2).isSome = true := by
  obtain ⟨file, hf, rfl⟩ := List.mem_map.1 hd
  exact linksIn_satisfies (linksSatisfy_documentOf h hf) "" link hl

/-- What leads to a member is not broken. -/
theorem brokenLinks_of_isSome {documents : List Document}
    (h : ∀ document ∈ documents, ∀ link ∈ Document.linksIn "" document.schema,
      (Document.linked? documents document link.2).isSome = true) :
    Document.brokenLinks documents = [] := by
  refine List.flatMap_eq_nil_iff.2 fun document hd => List.filterMap_eq_nil_iff.2 fun link hl => ?_
  obtain ⟨member, hm⟩ := Option.isSome_iff_exists.1 (h document hd link hl)
  simp [hm]

/-- No link of a batch is broken if its files can be converted. -/
theorem brokenLinks_eq_nil (h : Converts options files) :
    Document.brokenLinks (documentsOf options files) = [] :=
  brokenLinks_of_isSome fun _ hd _ hl => isSome_linked? h hd hl

/-- A batch succeeds if nothing fatal is met on the way to its documents. -/
theorem isOk_of_problemsOf (h : ∀ p ∈ problemsOf options files, p.isFatal = false) :
    (ofFiles options files).isOk = true := by
  have hc : Converts options files := fun file hf p hp =>
    h p (List.mem_append_right _ (List.mem_flatMap.2 ⟨file, hf, hp⟩))
  have hlinks := brokenLinks_of_isSome fun _ hd _ hl => isSome_linked? hc hd hl
  rw [ofFiles_eq_ok_iff.2 ⟨h, hlinks, rfl⟩]
  rfl

theorem ofFiles_clashing : ∃ batch, ofFiles {} clashing = .ok batch := by
  refine ok_of_isOk (isOk_of_problemsOf ?_)
  rw [problemsOf, linkageOf, catalogOf, collect_clashing]
  decide +kernel

theorem brokenLinks_clashing : Converts {} clashing ∧
    Document.brokenLinks (documentsOf {} clashing) = [] := by
  obtain ⟨batch, h⟩ := ofFiles_clashing
  exact ⟨(succeeds_of_ofFiles h).converts, brokenLinks_eq_nil (succeeds_of_ofFiles h).converts⟩

end Batch

end Crosswalk
