import Crosswalk.Proofs.Collection
import Crosswalk.Proofs.Definitions
import Crosswalk.Proofs.Counterpart.Catalog
import Crosswalk.Proofs.Counterpart.Content

/-!
# The order of declarations in a batch

Files whose declarations are put in another order succeed or fail as before, with the same documents.
Each declaration is converted on its own, to the same schema as before, and a document lists its
definitions and properties in order of name.
-/

namespace Crosswalk

open Conversion Declarations

/-! ### Conversions -/

namespace Conversion

variable {context context' : Context}

/-- What some declarations are converted to, those left out that cannot be converted. -/
def schemasOf {α : Type} (convert : α → Conversion (String × Json)) (as : List α) :
    List (String × Json) :=
  as.filterMap fun a => (outcome (convert a)).toOption

/-- Some declarations are converted, each with this result. -/
theorem outcome_same {α : Type} {c d : Conversion α} (h : SameFrom {} c d) :
    outcome c = outcome d :=
  congrArg Prod.fst (h {} rfl).1

theorem schemasOf_perm {α : Type} {convert convert' : α → Conversion (String × Json)}
    {as as' : List α} (h : as.Perm as')
    (hsame : ∀ a ∈ as, outcome (convert a) = outcome (convert' a)) :
    (schemasOf convert as).Perm (schemasOf convert' as') := by
  unfold schemasOf
  rw [List.filterMap_congr fun a ha => congrArg Except.toOption (hsame a ha)]
  exact h.filterMap _

/-- Declarations under different keys are converted to schemas under different keys. -/
theorem nodup_schemasOf {α : Type} {convert : α → Conversion (String × Json)} (key : α → String)
    (hk : ∀ a, Yields (convert a) fun entry => entry.1 = key a) {as : List α}
    (hn : (as.map key).Nodup) : ((schemasOf convert as).map (·.1)).Nodup := by
  refine hn.sublist ?_
  clear hn
  induction as with
  | nil => exact .slnil
  | cons a rest ih =>
      unfold schemasOf
      cases ho : outcome (convert a) with
      | error p =>
          rw [List.filterMap_cons_none (by rw [ho]; rfl)]
          exact ih.cons _
      | ok entry =>
          rw [List.filterMap_cons_some (b := entry) (by rw [ho]; rfl), List.map_cons, List.map_cons,
            (hk a).outcome ho]
          exact ih.cons_cons _

theorem convertFile_fst (context : Context) : (convertFile context).1 =
    { definitions := Table.ofList
        (schemasOf (typeDefinition context) context.file.schema.types ++
          schemasOf (groupDefinition context) (reusedGroups context))
      elements := schemasOf (elementProperty context) context.file.schema.elements
      types := (schemasOf (typeDefinition context) context.file.schema.types).map (·.1) } := by
  unfold schemasOf
  rw [← (convertEach_eq (isClosed_steady.typeDefinition context) _ []).1,
    ← (convertEach_eq (isClosed_steady.groupDefinition context) _ _).1,
    ← (convertEach_eq (isClosed_steady.elementProperty context) _ _).1]
  rfl

section

variable (h : context.Corresponds context')
  (hs : context.file.schema.Rearranges context'.file.schema)
include h hs

theorem reusedGroups_perm : (reusedGroups context).Perm (reusedGroups context') := by
  unfold reusedGroups
  rw [List.filter_congr fun group hg => isReused_same h hg]
  exact hs.groups.filter _

/-- A file with its declarations in another order is converted without anything fatal if the first
one is. -/
theorem convertFile_fine (hf : ∀ p ∈ (convertFile context).2, p.isFatal = false) :
    ∀ p ∈ (convertFile context').2, p.isFatal = false := by
  obtain ⟨htypes, hgroups, helements⟩ := (convertFile_fine_iff context).1 hf
  refine (convertFile_fine_iff context').2 ⟨fun type ht => ?_, fun group hg => ?_, fun e he => ?_⟩
  · have ht := hs.types.mem_iff.2 ht
    exact outcome_same (sameFrom_typeDefinition h ht) ▸ htypes type ht
  · have hg := (reusedGroups_perm h hs).mem_iff.2 hg
    exact outcome_same (sameFrom_groupDefinition h (List.mem_of_mem_filter hg)) ▸ hgroups group hg
  · have he := hs.elements.mem_iff.2 he
    exact outcome_same (sameFrom_elementProperty h he) ▸ helements e he

/-- A file with its declarations in another order becomes the same document. -/
theorem assemble_rearranged
    (htypes : (context.file.schema.types.map (·.name.name)).Nodup)
    (hgroups : (context.file.schema.groups.map (·.name.name)).Nodup)
    (helements : (context.file.schema.elements.map (·.name.name)).Nodup)
    (options : Options) (source identifier : String) (documentation : Option String) :
    Document.assemble options source identifier documentation (convertFile context).1 =
      Document.assemble options source identifier documentation (convertFile context').1 := by
  have ht := schemasOf_perm hs.types fun type ht => outcome_same (sameFrom_typeDefinition h ht)
  have hg := schemasOf_perm (reusedGroups_perm h hs) fun group hg =>
    outcome_same (sameFrom_groupDefinition h (List.mem_of_mem_filter hg))
  have he := schemasOf_perm hs.elements fun e he => outcome_same (sameFrom_elementProperty h he)
  have htypeKeys := nodup_schemasOf (fun type => type.name.name) (fun type =>
    (yields_typeDefinition (reaches_true context) type).mono fun _ he => he.1) htypes
  have hgroupKeys := nodup_schemasOf (fun group => groupKey group.name.name) (fun group =>
    (yields_groupDefinition (reaches_true context) group).mono fun _ he => he.1)
      (Batch.nodup_reusedKeys hgroups)
  have helementKeys := nodup_schemasOf (fun element => element.name.name) (fun element =>
    (yields_elementProperty (reaches_true context) element).mono fun _ he => he.1) helements
  rw [convertFile_fst, convertFile_fst]
  exact Document.assemble_congr (Table.ofList_append_perm ht hg htypeKeys hgroupKeys)
    (Document.properties_perm he helementKeys (ht.map _))

end

end Conversion

/-! ### Batches -/

namespace Batch

variable {options : Options} {files files' : List (String × String)} {batch : Batch}

/-- The same files, with their declarations in another order. -/
def AreRearranged (files files' : List (String × String)) : Prop :=
  List.Forall₂ (fun file file' => file.1 = file'.1 ∧ Schema.IsRearranged file.2 file'.2)
    files files'

namespace AreRearranged

variable (h : AreRearranged files files')
include h

theorem symm : AreRearranged files' files :=
  h.flip.imp fun _ _ hfile => ⟨hfile.1.symm, hfile.2.symm⟩

theorem filenames : files.map (·.1) = files'.map (·.1) :=
  map_eq_of_forall₂ h fun _ _ _ _ hfile => hfile.1

theorem areApart (ha : AreApart options files) : AreApart options files' := by
  have hidentifiers := congrArg (List.map options.identifierOf) h.filenames
  rw [List.map_map, List.map_map] at hidentifiers
  exact ⟨h.filenames ▸ ha.filenames, hidentifiers ▸ ha.identifiers⟩

/-- The files that are read have their declarations in another order. -/
theorem read : List.Forall₂ (fun file file' => Option.Rel File.Rearranges
    (fileOf? options file) (fileOf? options file')) (Table.ofList files) (Table.ofList files') := by
  have hfiles := Table.forall₂_ofList (R := fun file file' => file.1 = file'.1 ∧
    Schema.IsRearranged file.2 file'.2) (fun _ _ hfile => hfile.1) h
  refine hfiles.imp fun file file' hfile => ?_
  obtain ⟨name, text⟩ := file
  obtain ⟨name', text'⟩ := file'
  obtain ⟨rfl, htext⟩ := hfile
  have hfile : ∀ text, fileOf? options (name, text) =
      ((Schema.ofText name text).toOption.map (·.1)).map fun schema =>
        ⟨name, options.identifierOf name, text, schema⟩ := fun text => by
    unfold fileOf?
    rcases Schema.ofText name text with _ | ⟨schema, notes⟩ <;> rfl
  have hrel := Schema.ofText_rearranged name htext
  rw [hfile, hfile]
  generalize (Schema.ofText name text).toOption.map (·.1) = s,
    (Schema.ofText name text').toOption.map (·.1) = s' at hrel
  cases hrel with
  | none => exact .none
  | some hschema => exact .some ⟨rfl, rfl, hschema⟩

/-- The catalog has the same files, with their declarations in another order. -/
theorem catalogOf (ha : AreApart options files) :
    (Batch.catalogOf options files).Rearranges (Batch.catalogOf options files') := by
  rw [catalogOf_eq ha, catalogOf_eq (h.areApart ha)]
  exact List.rel_filterMap (fun _ _ hfile => hfile) h.read

/-- All files can be read if they can with their declarations in another order. -/
theorem collect (ha : AreApart options files)
    (hf : ∀ p ∈ (Batch.collect options files).2, p.isFatal = false) :
    ∀ p ∈ (Batch.collect options files').2, p.isFatal = false := by
  rw [collect_eq ha] at hf
  rw [collect_eq (h.areApart ha)]
  intro p hp
  obtain ⟨file', hfile', hp⟩ := List.mem_flatMap.1 hp
  have hread : List.Forall₂ (fun file file' =>
      Option.Rel File.Rearranges (fileOf? options file) (fileOf? options file'))
      (Table.ofList files) (Table.ofList files') := h.read
  obtain ⟨file, hfile, hrel⟩ := exists_entry hread.flip hfile'
  have hsome : (fileOf? options file).isSome = true := readProblems_fine_iff.1 fun q hq =>
    hf q (List.mem_flatMap.2 ⟨file, hfile, hq⟩)
  have hsome' : (fileOf? options file').isSome = true := by
    generalize fileOf? options file = f, fileOf? options file' = g at hrel hsome
    cases hrel with
    | none => exact hsome
    | some => rfl
  exact readProblems_fine_iff.2 hsome' p hp

end AreRearranged

/-- A batch that succeeds does so with the declarations of its files in another order, and with the
same documents. -/
theorem ok_of_areRearranged (h : AreRearranged files files')
    (hok : ofFiles options files = .ok batch) :
    ∃ batch', ofFiles options files' = .ok batch' ∧ batch'.documents = batch.documents := by
  have ha := areApart_of_ok hok
  have hcatalog := h.catalogOf ha
  obtain ⟨hfine, hbroken, rfl⟩ := ofFiles_eq_ok_iff.1 hok
  have proper : ∀ files, (catalogOf options files).IsProper := fun _ => isProper_catalogOf
  simp only [problemsOf, List.forall_mem_append] at hfine
  obtain ⟨⟨hread, hlinked⟩, hconverted⟩ := hfine
  have hlinks := (Linkage.links_iff (proper files).ofFilename).2 hlinked
  have hlinks' := hcatalog.symm.links hlinks
  have hcorresponds : (linkageOf options files).Corresponds (linkageOf options files') :=
    hcatalog.corresponds hlinks'.names
  have hprefixes : ∀ {f g : File}, (linkageOf options files).Twins (linkageOf options files') f g →
      f.schema.prefixes = g.schema.prefixes := fun {f g} hfg => by
    obtain ⟨g', hg', hfg'⟩ := exists_entry hcatalog hfg.left
    obtain rfl := (proper files').ofFilename g' hg' g hfg.right
      (hfg'.filename.symm.trans hfg.filename)
    exact hfg'.schema.prefixes
  have hcontext : ∀ f ∈ (catalogOf options files).files, ∀ g ∈ (catalogOf options files').files,
      f.Rearranges g → (contextOf options files f).Corresponds (contextOf options files' g) :=
    fun f hf g hg hfg => ⟨hcorresponds, ⟨hfg.resembles, hf, hg⟩, rfl, rfl, rfl, fun _ => hprefixes⟩
  have hconverts : ∀ g ∈ (catalogOf options files').files,
      ∀ p ∈ (convert options (linkageOf options files') g).2, p.isFatal = false := by
    intro g hg
    obtain ⟨f, hf, hfg⟩ := exists_entry hcatalog.flip hg
    exact convertFile_fine (hcontext f hf g hg hfg) hfg.schema fun p hp =>
      hconverted p (List.mem_flatMap.2 ⟨f, hf, hp⟩)
  have hdocuments : documentsOf options files = documentsOf options files' := by
    refine map_eq_of_forall₂ hcatalog fun f hf g hg hfg => ?_
    have hlocal := (isProper_catalogOf.read f hf).isLocal
    have hnodup := fun {α : Type} (row : Row α) =>
      Linkage.nodup_of_ofCatalog row hlinked hf
    rw [documentOf_eq, documentOf_eq, ← hfg.filename, ← hfg.identifier, ← hfg.schema.documentation]
    exact assemble_rearranged (hcontext f hf g hg hfg) hfg.schema
      (nodup_local hlocal.types (hnodup .types)) (nodup_local hlocal.groups (hnodup .groups))
      (nodup_local hlocal.elements (hnodup .elements)) _ _ _ _
  refine ⟨_, ofFiles_eq_ok_iff.2 ⟨?_, hdocuments ▸ hbroken, rfl⟩, hdocuments.symm⟩
  simp only [problemsOf, List.forall_mem_append]
  refine ⟨⟨h.collect ha hread, (Linkage.links_iff (proper files').ofFilename).1 hlinks'⟩, fun p hp => ?_⟩
  obtain ⟨g, hg, hp⟩ := List.mem_flatMap.1 hp
  exact hconverts g hg p hp

/-- Files succeed or fail as they do with their declarations in another order, and succeed with the
same documents; and each declaration is converted to the same schema, whatever was converted before
it. -/
theorem ofFiles_areRearranged (h : AreRearranged files files') :
    ((∃ problems problems', ofFiles options files = .error problems ∧
        ofFiles options files' = .error problems') ∨
      ∃ batch batch', ofFiles options files = .ok batch ∧ ofFiles options files' = .ok batch' ∧
        batch'.documents = batch.documents) ∧
    ∀ (context : Context) (diagnostics : List Problem),
      (∀ types, (convertEach (typeDefinition context) types diagnostics).schemas =
        types.filterMap fun type => (outcome (typeDefinition context type)).toOption) ∧
      (∀ groups, (convertEach (groupDefinition context) groups diagnostics).schemas =
        groups.filterMap fun group => (outcome (groupDefinition context group)).toOption) ∧
      ∀ elements, (convertEach (elementProperty context) elements diagnostics).schemas =
        elements.filterMap fun element => (outcome (elementProperty context element)).toOption := by
  refine ⟨?_, fun context diagnostics => ⟨?_, ?_, ?_⟩⟩
  · cases hok : ofFiles options files with
    | ok batch =>
        obtain ⟨batch', hok', hsame⟩ := ok_of_areRearranged h hok
        exact .inr ⟨batch, batch', rfl, hok', hsame⟩
    | error problems =>
        cases hok' : ofFiles options files' with
        | ok batch' =>
            obtain ⟨batch, hback, -⟩ := ok_of_areRearranged h.symm hok'
            exact nomatch hok.symm.trans hback
        | error problems' => exact .inl ⟨problems, problems', rfl, rfl⟩
  · exact fun types => (convertEach_eq (isClosed_steady.typeDefinition context) types _).1
  · exact fun groups => (convertEach_eq (isClosed_steady.groupDefinition context) groups _).1
  · exact fun elements => (convertEach_eq (isClosed_steady.elementProperty context) elements _).1

section

/-- An element, and the type that it refers to. -/
def typedElement : List String := ["<s:element name='e' type='t'/>", "<s:complexType name='t'/>"]

/-- A file with some declarations. -/
def declaring (declarations : List String) : String × String :=
  ("a", "<s:schema xmlns:s='http://www.w3.org/2001/XMLSchema'>" ++ String.join declarations ++
    "</s:schema>")

/-- A declaration in the tree of a document. -/
def leaf (name : String) (attributes : List (String × String)) : Xml.Element :=
  ⟨QName.xsdSpace, name, attributes.map fun a => ⟨none, a.1, a.2⟩, [("s", QName.xsdSpace)], []⟩

/-- The root of a document in its tree. -/
def rootOf (children : List Xml.Element) : Xml.Element :=
  ⟨QName.xsdSpace, "schema", [], [("s", QName.xsdSpace)], children.map .element⟩

/-- The parts of a file with declarations that hold nothing. -/
def leafParts (children : List (String × List (String × String))) : List Xml.Event :=
  Xml.schemaParts (children.flatMap fun c => Xml.elementParts c.1 c.2 [])

/-- The characters of a file with two declarations. -/
theorem toList_declaring {first second : List Char} :
    (declaring [String.ofList first, String.ofList second]).2.toList =
      "<s:schema xmlns:s='http://www.w3.org/2001/XMLSchema'>".toList ++ (first ++ second) ++
        "</s:schema>".toList := by
  simp only [declaring, String.join, List.foldl_cons, List.foldl_nil, String.toList_append,
    String.toList_ofList, String.toList_empty, List.nil_append]

/-- The parts of the file with the element and its type. -/
def typedElementParts : List Xml.Event :=
  leafParts [("element", [("name", "e"), ("type", "t")]), ("complexType", [("name", "t")])]

theorem events?_typedElement :
    Xml.events? (Text.trimStart (declaring typedElement).2) = some typedElementParts :=
  (Xml.events?_trimStart toList_declaring).trans (by cbv)

theorem areRearranged_typedElement :
    AreRearranged [declaring typedElement] [declaring typedElement.reverse] := by
  have hevents' : Xml.events? (Text.trimStart (declaring typedElement.reverse).2) =
      some (leafParts [("complexType", [("name", "t")]),
        ("element", [("name", "e"), ("type", "t")])]) :=
    (Xml.events?_trimStart toList_declaring).trans (by cbv)
  refine .cons ⟨rfl, .inr ⟨
    rootOf [leaf "element" [("name", "e"), ("type", "t")], leaf "complexType" [("name", "t")]],
    rootOf [leaf "complexType" [("name", "t")], leaf "element" [("name", "e"), ("type", "t")]],
    ?_, ?_, rfl, rfl, rfl, rfl, .swap _ _ _, rfl⟩⟩ .nil
  · rw [Xml.Element.ofText?, events?_typedElement]
    rfl
  · rw [Xml.Element.ofText?, hevents']
    rfl

theorem isOk_typedElement : (ofFiles {} [declaring typedElement]).isOk = true := by
  have hcollect : collect {} [declaring typedElement] =
      collectParts {} (fun _ => typedElementParts) [declaring typedElement] :=
    collect_of_events (List.forall_mem_singleton.2 events?_typedElement)
  refine isOk_of_problemsOf ?_
  rw [problemsOf, linkageOf, catalogOf, hcollect]
  decide +kernel

theorem ofFiles_areRearranged_typedElement :
    AreRearranged [declaring typedElement] [declaring typedElement.reverse] ∧
    ∃ batch batch', ofFiles {} [declaring typedElement] = .ok batch ∧
      ofFiles {} [declaring typedElement.reverse] = .ok batch' ∧
      batch'.documents = batch.documents := by
  obtain ⟨batch, hok⟩ := ok_of_isOk isOk_typedElement
  refine ⟨areRearranged_typedElement, ?_⟩
  rcases (ofFiles_areRearranged areRearranged_typedElement).1 with ⟨_, _, herror, -⟩ | h
  · exact nomatch hok.symm.trans herror
  · exact h

end

end Batch

end Crosswalk
