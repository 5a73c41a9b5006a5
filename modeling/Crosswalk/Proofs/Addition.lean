import Crosswalk.Proofs.Collection
import Crosswalk.Proofs.Problem
import Crosswalk.Proofs.Linkage.Links
import Crosswalk.Proofs.Linkage.Uses
import Crosswalk.Proofs.Conversion.Notes
import Crosswalk.Proofs.Counterpart.Content

/-!
# Batches with a file more

In strict resolution a name of a file that is accepted stands for itself, so that a further file has
nothing to add to it. All that the other files still have in common is how often a model group is
referred to. So a further file that refers to none leaves the documents of the others as they are,
and their diagnostics.
-/

namespace Crosswalk

open Conversion Declarations

/-! ### Catalogs -/

namespace Linkage

variable {catalog catalog' : Catalog}

/-- In strict resolution, the linkage of some of the files corresponds to that of all, if the others
refer to no model group. -/
theorem corresponds_of_subset (hlinks : Links catalog .strict) (hlinks' : Links catalog' .strict)
    (hd : ∀ f ∈ catalog'.files, ∀ g ∈ catalog'.files, f.filename = g.filename → f = g)
    {keep : File → Bool} (hkeep : catalog.files = catalog'.files.filter keep)
    (hgroups : ∀ f ∈ catalog'.files, keep f = false →
      ∀ r ∈ f.schema.references, r.kind ≠ .group) :
    (ofCatalog catalog .strict).1.Corresponds (ofCatalog catalog' .strict).1 := by
  have hsub : ∀ {f}, f ∈ catalog.files → f ∈ catalog'.files := fun {f} hf =>
    List.mem_of_mem_filter (hkeep ▸ hf)
  have hsame : ∀ {f}, f ∈ catalog.files → ∀ r ∈ f.schema.references,
      (ofCatalog catalog .strict).1.resolve? r.kind f r.name =
        (ofCatalog catalog' .strict).1.resolve? r.kind f r.name := by
    intro f hf r hr
    obtain ⟨resolved, h⟩ := Option.isSome_iff_exists.1 (hlinks.references f hf r hr)
    obtain ⟨resolved', h'⟩ := Option.isSome_iff_exists.1 (hlinks'.references f (hsub hf) r hr)
    rw [h, h', resolve?_strict rfl h, resolve?_strict rfl h']
  refine ⟨isLinked_ofCatalog catalog .strict, fun {f g} htwins => ?_, fun row _ q a ha => ?_,
    fun q _ => ?_⟩
  · obtain rfl := hd f (hsub htwins.left) g htwins.right htwins.filename
    exact hsame htwins.left
  · obtain ⟨hf, hdeclared, rfl⟩ := located_of_find? row ha
    exact ⟨a, find?_of_ofCatalog row ((links_iff hd).1 hlinks') (hsub hf) hdeclared,
      .refl hf (hsub hf)⟩
  · have hkept : ∀ f ∈ catalog.files, (ofCatalog catalog .strict).1.usesIn q f =
        (ofCatalog catalog' .strict).1.usesIn q f := fun f hf =>
      usesIn_eq (hsame hf) q
    have hleft : ∀ f ∈ catalog'.files.filter (!keep ·),
        (ofCatalog catalog' .strict).1.usesIn q f = 0 := fun f hf =>
      usesIn_eq_zero (hgroups f (List.mem_of_mem_filter hf)
        (by simpa using (List.mem_filter.1 hf).2)) q
    have hsplit := ((List.filter_append_perm keep catalog'.files).map
      ((ofCatalog catalog' .strict).1.usesIn q)).sum_eq
    rw [← hkeep, List.map_append, List.sum_append, List.map_eq_map_iff.2 hleft] at hsplit
    rw [isReused, isReused, groupUseCount_ofCatalog, groupUseCount_ofCatalog, ← hsplit,
      List.map_congr_left hkept]
    simp

end Linkage

namespace Batch

variable {options : Options} {files files' : List (String × String)} {added : String × String}
  {batch batch' : Batch}

section

variable (hapart : AreApart options files') (hadd : files'.Perm (added :: files))
include hapart hadd

/-- In order of name, the other files are those that are left if the one is left out. -/
theorem ofList_leftOut :
    Table.ofList files = (Table.ofList files').filter fun file => file.1 ≠ added.1 := by
  have hnames : (added.1 :: files.map (·.1)).Nodup := (hadd.map _).nodup_iff.1 hapart.filenames
  obtain ⟨hnew, hnodup⟩ := List.nodup_cons.1 hnames
  have hleft : (files'.filter fun file => file.1 ≠ added.1).Perm files := by
    refine (hadd.filter _).trans ?_
    rw [List.filter_cons_of_neg (by simp), List.filter_eq_self.2 fun file hf => ?_]
    exact decide_eq_true fun heq => hnew (heq ▸ List.mem_map_of_mem hf)
  rw [← Table.ofList_filter hapart.filenames, Table.ofList_perm hleft]
  exact ((hleft.map _).nodup_iff).2 hnodup

theorem catalogOf_leftOut (h : AreApart options files) : (catalogOf options files).files =
    (catalogOf options files').files.filter fun f => f.filename ≠ added.1 := by
  rw [catalogOf_eq h, catalogOf_eq hapart, ofList_leftOut hapart hadd, List.filterMap_filter,
    List.filter_filterMap]
  refine List.filterMap_congr fun file _ => ?_
  cases hf : fileOf? options file with
  | none => exact ite_self none
  | some f => rw [Option.filter_some, filename_of_fileOf? hf]

/-- The problems met with the other files are those that are not about the one. -/
theorem collect_leftOut (h : AreApart options files) :
    (collect options files').2.filter (fun p => p.filename ≠ added.1) =
      (collect options files).2 := by
  rw [collect_eq hapart, collect_eq h, ofList_leftOut hapart hadd]
  exact flatMap_leftOut _ fun file _ p hp => by rw [filename_of_mem_readProblems hp]

end

/-- A file of a batch is one that was submitted and can be read. -/
theorem exists_of_mem_catalogOf (h : AreApart options files) {f : File}
    (hf : f ∈ (catalogOf options files).files) : ∃ file ∈ files, fileOf? options file = some f := by
  rw [catalogOf_eq h] at hf
  obtain ⟨file, hm, hfile⟩ := List.mem_filterMap.1 hf
  exact ⟨file, Table.mem_ofList hm, hfile⟩

/-- In strict resolution, everything that the files of a batch that succeeds mention is declared. -/
theorem links_of_ok (hs : options.resolution = .strict) (h : ofFiles options files = .ok batch) :
    Linkage.Links (catalogOf options files) .strict :=
  (Linkage.links_iff fun f hf g hg => isProper_catalogOf.ofFilename f hf g hg).2
    (hs ▸ (succeeds_of_ofFiles h).links)

/-- In strict resolution, a batch that succeeds has no problems of linking. -/
theorem ofCatalog_snd_of_ok (hs : options.resolution = .strict)
    (h : ofFiles options files = .ok batch) :
    (Linkage.ofCatalog (catalogOf options files) options.resolution).2 = [] :=
  hs ▸ (links_of_ok hs h).problems_eq_nil

section

variable (hs : options.resolution = .strict) (hadd : files'.Perm (added :: files))
  (hgroups : ∀ schema notes, Schema.ofText added.1 added.2 = .ok (schema, notes) →
    ∀ r ∈ schema.references, r.kind ≠ .group)
  (h : ofFiles options files = .ok batch) (h' : ofFiles options files' = .ok batch')
include hs hadd hgroups h h'

/-- The names of the other files stand for the same as without the one, which refers to no model
group. -/
theorem linkageOf_corresponds :
    (linkageOf options files).Corresponds (linkageOf options files') := by
  have hapart' := areApart_of_ok h'
  rw [linkageOf, linkageOf, hs]
  refine Linkage.corresponds_of_subset (links_of_ok hs h) (links_of_ok hs h')
    (fun f hf g hg => isProper_catalogOf.ofFilename f hf g hg)
    (catalogOf_leftOut hapart' hadd (areApart_of_ok h)) fun f hf hout => ?_
  have hname : f.filename = added.1 := by simpa using hout
  obtain ⟨file, hm, hfile⟩ := exists_of_mem_catalogOf hapart' hf
  obtain rfl : file = added := List.inj_on_of_nodup_map hapart'.filenames hm
    (hadd.mem_iff.2 List.mem_cons_self) ((filename_of_fileOf? hfile).symm.trans hname)
  obtain ⟨notes, hread⟩ := ofText_of_fileOf? hfile
  exact hgroups f.schema notes hread

/-- So the other files become the same documents, with the same problems. -/
theorem convert_leftOut {f : File} (hf : f ∈ (catalogOf options files).files) :
    convert options (linkageOf options files') f =
      convert options (linkageOf options files) f := by
  have hleft := catalogOf_leftOut (areApart_of_ok h') hadd (areApart_of_ok h)
  have htwins : (linkageOf options files).Twins (linkageOf options files') f f :=
    ⟨.refl f, hf, List.mem_of_mem_filter (hleft ▸ hf)⟩
  have hsame :
      convertFile (contextOf options files f) = convertFile (contextOf options files' f) :=
    convertFile_same ⟨linkageOf_corresponds hs hadd hgroups h h', htwins, rfl, rfl, rfl,
      fun _ _ _ hfg => by
        rw [isProper_catalogOf.ofFilename _ (List.mem_of_mem_filter (hleft ▸ hfg.left)) _
          hfg.right hfg.filename]⟩ rfl rfl rfl
  rw [contextOf, contextOf] at hsame
  unfold convert
  rw [hsame]

/-- What is noted when the other files are converted is not about the one. -/
theorem converted_leftOut :
    ((catalogOf options files').files.flatMap fun f =>
        (convert options (linkageOf options files') f).2).filter (fun p => p.filename ≠ added.1) =
      (catalogOf options files).files.flatMap fun f =>
        (convert options (linkageOf options files) f).2 := by
  obtain ⟨hfine', -, -⟩ := ofFiles_eq_ok_iff.1 h'
  rw [flatMap_leftOut _ fun f hf p hp => ?_,
    ← catalogOf_leftOut (areApart_of_ok h') hadd (areApart_of_ok h)]
  · exact List.flatMap_congr fun f hf =>
      congrArg (·.2) (convert_leftOut hs hadd hgroups h h' hf)
  · have hnot : p.isFatal = false := hfine' p (List.mem_append_right _
      (List.mem_flatMap.2 ⟨f, hf, hp⟩))
    have hname : p.filename = f.filename := filename_of_mem_convertFile hp hnot
    rw [hname]

end

/-- In strict resolution, adding a file that refers to no model group changes neither the documents
of the other files nor the diagnostics about them. -/
theorem ofFiles_add (hs : options.resolution = .strict) (hadd : files'.Perm (added :: files))
    (hgroups : ∀ schema notes, Schema.ofText added.1 added.2 = .ok (schema, notes) →
      ∀ r ∈ schema.references, r.kind ≠ .group)
    (h : ofFiles options files = .ok batch) (h' : ofFiles options files' = .ok batch') :
    batch'.documents.filter (fun document => document.source ≠ added.1) = batch.documents ∧
      batch'.diagnostics.filter (fun p => p.filename ≠ added.1) = batch.diagnostics := by
  have hapart := areApart_of_ok h
  have hapart' := areApart_of_ok h'
  have hleft := catalogOf_leftOut hapart' hadd hapart
  have hconvert := @convert_leftOut _ _ _ _ _ _ hs hadd hgroups h h'
  have hconverted := converted_leftOut hs hadd hgroups h h'
  have hlinked := ofCatalog_snd_of_ok hs h
  have hlinked' := ofCatalog_snd_of_ok hs h'
  obtain ⟨-, -, rfl⟩ := ofFiles_eq_ok_iff.1 h
  obtain ⟨-, -, rfl⟩ := ofFiles_eq_ok_iff.1 h'
  refine ⟨?_, ?_⟩
  · rw [documentsOf, List.filter_map, documentsOf, hleft]
    exact List.map_congr_left fun f hf => congrArg (·.1) (hconvert (hleft ▸ hf))
  · rw [← Problem.sortByFile_filter]
    refine congrArg Problem.sortByFile ?_
    rw [problemsOf, problemsOf, List.filter_append, List.filter_append,
      collect_leftOut hapart' hadd hapart, hconverted, hlinked, hlinked', List.filter_nil]

/-- A file that declares a type, in the namespace of the files that declare and refer to an
element. -/
def typedFile : String × String :=
  ("c", "<s:schema xmlns:s='http://www.w3.org/2001/XMLSchema'><s:simpleType name='t'>" ++
    "<s:restriction base='s:string'/></s:simpleType></s:schema>")

/-- The parts of the file. -/
def typedParts : List Xml.Event :=
  Xml.schemaParts (Xml.elementParts "simpleType" [("name", "t")]
    (Xml.elementParts "restriction" [("base", "s:string")] []))

theorem events?_typedFile : Xml.events? (Text.trimStart typedFile.2) = some typedParts :=
  (Xml.events?_trimStart (Xml.toList_append_of String.toList_ofList String.toList_ofList)).trans
    (by cbv)

theorem collect_typedFile : collect {} [referringFile, declaringFile, typedFile] =
    collectParts {} (fun filename => if filename = "c" then typedParts else referringParts filename)
      [referringFile, declaringFile, typedFile] := by
  refine collect_of_events ?_
  rw [List.forall_mem_cons, List.forall_mem_cons, List.forall_mem_singleton]
  exact ⟨events?_referring _ List.mem_cons_self,
    events?_referring _ (List.mem_cons_of_mem _ List.mem_cons_self), events?_typedFile⟩

theorem isOk_typedFile : (ofFiles {} [referringFile, declaringFile, typedFile]).isOk = true := by
  refine isOk_of_problemsOf ?_
  rw [problemsOf, linkageOf, catalogOf, collect_typedFile]
  decide +kernel

/-- The file refers to no model group. -/
theorem kind_ne_group_typedFile {schema : Schema} {notes : List Problem}
    (h : Schema.ofText typedFile.1 typedFile.2 = .ok (schema, notes)) :
    ∀ r ∈ schema.references, r.kind ≠ .group := by
  have hall : (Schema.ofEvents typedFile.1 typedParts).toOption.all
      (fun read => read.1.references.all fun r => r.kind ≠ .group) = true := by decide +kernel
  rw [← Schema.ofText_of_events events?_typedFile, h] at hall
  simpa [Except.toOption] using hall

theorem ofFiles_add_typedFile : ∃ batch batch',
    ofFiles {} [referringFile, declaringFile] = .ok batch ∧
    ofFiles {} [referringFile, declaringFile, typedFile] = .ok batch' ∧
    batch'.documents.filter (fun document => document.source ≠ "c") = batch.documents ∧
    batch'.diagnostics.filter (fun p => p.filename ≠ "c") = batch.diagnostics := by
  obtain ⟨batch, h⟩ := ok_of_isOk isOk_referringFile
  obtain ⟨batch', h'⟩ := ok_of_isOk isOk_typedFile
  have hadd : [referringFile, declaringFile, typedFile].Perm
      (typedFile :: [referringFile, declaringFile]) := @List.perm_append_comm _ [_, _] [_]
  exact ⟨batch, batch', h, h',
    ofFiles_add rfl hadd (fun _ _ hread => kind_ne_group_typedFile hread) h h'⟩

end Batch

end Crosswalk
