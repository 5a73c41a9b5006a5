import Crosswalk.Proofs.Batch
import Crosswalk.Proofs.Counterpart.Content
import Crosswalk.Proofs.Counterpart.Linkage
import Crosswalk.Proofs.Linkage.Links

/-!
# Lenient resolution

In lenient resolution a name that is declared stands for the same declaration as in strict
resolution; it is only a name that stands for nothing which can come to stand for something. So if
every reference of every file stands for something in strict resolution, the linkage matches that of
lenient resolution, and linking reports the same problems. A batch that succeeds in strict resolution
has no other references, and so it has the same documents and diagnostics in lenient resolution.
-/

namespace Crosswalk

/-! ### Linkages -/

namespace Linkage

open Declarations

/-- The same declarations in lenient resolution. -/
def lenient (l : Linkage) : Linkage := { l with resolution := .lenient }

variable {l : Linkage}

/-- What stands for something stands for the same in lenient resolution. -/
theorem resolve?_lenient {kind : DeclarationKind} {file : File} {name : QName}
    (h : (l.resolve? kind file name).isSome = true) :
    l.lenient.resolve? kind file name = l.resolve? kind file name := by
  unfold resolve? at h ⊢
  split
  · rfl
  · next hb =>
      rw [if_neg hb] at h
      change (if l.declarations.contains kind name = true then _ else _) = _
      split
      · rfl
      · next hc =>
          rw [if_neg hc] at h
          split at h
          · exact nomatch h
          · next hs =>
              rw [if_neg hs]
              rfl

/-- The declarations are those of the files, and every reference of every file stands for
something. -/
structure IsSettled (l : Linkage) : Prop where
  linked : l.IsLinked
  settled : ∀ file ∈ l.catalog.files, ∀ r ∈ file.schema.references,
    (l.resolve? r.kind file r.name).isSome = true

namespace IsSettled

variable (h : l.IsSettled)
include h

/-- The linkage matches that of lenient resolution. -/
theorem fits : l.Matches l.lenient where
  there := {
    linked := h.linked
    sees := fun {f _} htwins r hr =>
      (resolve?_lenient (h.settled f htwins.left r hr)).symm.trans
        (resolve?_congr rfl (fun _ _ => rfl) htwins.toResembles r.kind r.name)
    declares := fun row _ _ a ha =>
      ⟨a, ha, .refl (h.linked.located row ha).1 (h.linked.located row ha).1⟩
    reuses := fun _ _ => rfl }
  back := {
    linked := ⟨h.linked.located, h.linked.declared⟩
    sees := fun {f _} htwins r hr =>
      (resolve?_lenient (h.settled f htwins.left r hr)).trans
        (resolve?_congr rfl (fun _ _ => rfl) htwins.toResembles r.kind r.name)
    declares := fun row _ _ a ha =>
      ⟨a, ha, .refl (h.linked.located row ha).1 (h.linked.located row ha).1⟩
    reuses := fun _ _ => rfl }

theorem typeCycles_lenient : ∀ (known : List QName) (entries : List (QName × Located NamedType)),
    (∀ entry ∈ entries, entry.2.file ∈ l.catalog.files ∧
      entry.2.declaration ∈ entry.2.file.schema.types) →
    l.lenient.typeCycles known entries = l.typeCycles known entries
  | _, [], _ => rfl
  | known, (name, located) :: rest, hentries => by
      rw [List.forall_mem_cons] at hentries
      have hloop := h.fits.baseLoop?_eq (l.declarations.types.length + 1) [name]
        (.refl hentries.1.1 hentries.1.1) hentries.1.2
      have hrest := fun known => typeCycles_lenient known rest hentries.2
      rw [typeCycles, typeCycles, hrest,
        show l.lenient.declarations = l.declarations from rfl, ← hloop]
      simp only [hrest]

end IsSettled

/-! ### Linking -/

/-- A declaration in a table is one of a file of the catalog. -/
theorem located_of_mem {α : Type} {catalog : Catalog} (row : Row α) {entry : QName × Located α}
    (h : entry ∈ row.table (({} : Declarations).addFiles catalog.files).1) :
    entry.2.file ∈ catalog.files ∧ entry.2.declaration ∈ row.declared entry.2.file.schema := by
  rcases row.mem_addFiles catalog.files h with hm | ⟨file, hf, he, hd, -⟩
  · exact absurd (row.table_empty ▸ hm) List.not_mem_nil
  · exact he ▸ ⟨hf, hd⟩

/-- A reference that stands for something is followed to the same declaration. -/
theorem follow_lenient {t : Tally} {file : File} {r : Reference}
    (h : (l.resolve? r.kind file r.name).isSome = true) :
    l.lenient.follow t (file, r) = l.follow t (file, r) := by
  rw [follow, follow, resolve?_lenient h]
  rfl

variable {catalog : Catalog}

/-- Where nothing fatal is reported in strict resolution, every reference is settled. -/
theorem isSettled_ofCatalog
    (hd : ∀ f ∈ catalog.files, ∀ g ∈ catalog.files, f.filename = g.filename → f = g)
    (hlinks : ∀ p ∈ (ofCatalog catalog .strict).2, p.isFatal = false) :
    (ofCatalog catalog .strict).1.IsSettled :=
  ⟨isLinked_ofCatalog catalog .strict, fun _ hf _ hr => resolves_of_ofCatalog hd hlinks hf hr⟩

/-- Linking gives the same declarations and reports the same problems. -/
theorem ofCatalog_lenient (h : (ofCatalog catalog .strict).1.IsSettled) :
    ofCatalog catalog .lenient =
      ((ofCatalog catalog .strict).1.lenient, (ofCatalog catalog .strict).2) := by
  have htally : (allReferences catalog).foldl
      (⟨catalog, .lenient, (({} : Declarations).addFiles catalog.files).1, []⟩ : Linkage).follow
        {} = (allReferences catalog).foldl
      (⟨catalog, .strict, (({} : Declarations).addFiles catalog.files).1, []⟩ : Linkage).follow
        {} := by
    refine List.foldl_ext _ _ _ fun t use huse => ?_
    obtain ⟨hf, hr⟩ := mem_allReferences.1 huse
    exact follow_lenient (l := ⟨catalog, .strict, _, []⟩) (h.settled use.1 hf use.2 hr)
  have hcycles : (ofCatalog catalog .strict).1.lenient.cycles =
      (ofCatalog catalog .strict).1.cycles := by
    have htypes := h.typeCycles_lenient [] _ fun entry he => located_of_mem .types he
    have hgroups : (ofCatalog catalog .strict).1.lenient.groupCycles =
        (ofCatalog catalog .strict).1.groupCycles := by
      refine List.filterMap_congr fun entry he => ?_
      obtain ⟨hfile, hg⟩ := located_of_mem .groups he
      obtain ⟨name, located⟩ := entry
      have hsees := h.fits.there.sees_group (.refl hfile hfile) hg
      dsimp only
      rw [show (ofCatalog catalog .strict).1.lenient.declarations =
        (ofCatalog catalog .strict).1.declarations from rfl, ← h.fits.groupLoops_eq _ _ hsees]
    unfold cycles
    rw [hgroups]
    exact congrArg (· ++ _) htypes
  unfold ofCatalog at hcycles ⊢
  simp only [lenient] at hcycles ⊢
  rw [htally, hcycles]

end Linkage

/-! ### Batches -/

namespace Batch

open Conversion

variable {options : Options} {files : List (String × String)} {batch : Batch}

/-- Registering depends on the names of documents only. -/
theorem registerAll_lenient (files : List (String × String)) (registry : Registry) :
    registerAll { options with resolution := .lenient } files registry =
      registerAll options files registry := by
  induction files generalizing registry with
  | nil => rfl
  | cons file rest ih =>
      simp only [registerAll, ih]
      rfl

theorem collect_lenient :
    collect { options with resolution := .lenient } files = collect options files := by
  rw [collect, collect, registerAll_lenient]

/-- In lenient resolution a file becomes the same document, with the same problems. -/
theorem convert_lenient {linkage : Linkage} (h : linkage.IsSettled)
    (hd : ∀ f ∈ linkage.catalog.files, ∀ g ∈ linkage.catalog.files, f.filename = g.filename → f = g)
    {file : File} (hf : file ∈ linkage.catalog.files) :
    convert { options with resolution := .lenient } linkage.lenient file =
      convert options linkage file := by
  have hsame : convertFile ⟨linkage, options, file⟩ =
      convertFile ⟨linkage.lenient, { options with resolution := .lenient }, file⟩ :=
    convertFile_same ⟨h.fits.there, ⟨.refl file, hf, hf⟩, rfl, rfl, rfl, fun _ f g hfg => by
      rw [hd f hfg.left g hfg.right hfg.filename]⟩ rfl rfl rfl
  rw [convert, convert, ← hsame]
  rfl

/-- A batch that succeeds in strict resolution succeeds in lenient resolution, with the same
documents and diagnostics. -/
theorem ofFiles_lenient (hs : options.resolution = .strict)
    (h : ofFiles options files = .ok batch) :
    ofFiles { options with resolution := .lenient } files = .ok batch := by
  have hlinks := (succeeds_of_ofFiles h).links
  rw [hs] at hlinks
  have hsettled := Linkage.isSettled_ofCatalog
    (fun f hf g hg => isProper_catalogOf.ofFilename f hf g hg) hlinks
  have hconverted : (catalogOf options files).files.map
      (convert { options with resolution := .lenient }
        (Linkage.ofCatalog (catalogOf options files) .strict).1.lenient) =
      (catalogOf options files).files.map
        (convert options (Linkage.ofCatalog (catalogOf options files) .strict).1) :=
    List.map_congr_left fun file hf => convert_lenient hsettled
      (fun f hf g hg => isProper_catalogOf.ofFilename f hf g hg) hf
  rw [← h]
  unfold ofFiles
  rw [collect_lenient, hs]
  dsimp only
  rw [show (collect options files).1.close = catalogOf options files from rfl,
    Linkage.ofCatalog_lenient hsettled, hconverted]

theorem ofFiles_lenient_clashing : ({} : Options).resolution = .strict ∧
    ∃ batch, ofFiles {} clashing = .ok batch ∧ ofFiles .lenient clashing = .ok batch := by
  obtain ⟨batch, h⟩ := ofFiles_clashing
  have hlenient : ofFiles { ({} : Options) with resolution := .lenient } clashing = .ok batch :=
    ofFiles_lenient rfl h
  exact ⟨rfl, batch, h, hlenient⟩

end Batch

end Crosswalk
