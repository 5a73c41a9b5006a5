import Crosswalk.Proofs.Schema.Arrangement
import Crosswalk.Proofs.Linkage.Links
import Crosswalk.Proofs.Linkage.Uses
import Crosswalk.Proofs.Counterpart.Linkage

/-!
# Catalogs with their declarations in another order

Files that differ in the order of their declarations declare the same names and refer to the same,
so that every name stands for the same from either of them. Such files link if and only if the first
ones do, and then either linkage corresponds to the other one.
-/

namespace Crosswalk

open Declarations Linkage

/-- Two files are alike, apart from their texts and from the order of their declarations. -/
structure File.Rearranges (f g : File) : Prop where
  filename : f.filename = g.filename
  identifier : f.identifier = g.identifier
  schema : f.schema.Rearranges g.schema

namespace Schema.Rearranges

variable {s t : Schema} (h : s.Rearranges t)
include h

theorem declared {α : Type} {row : Row α} (hb : row.IsBasic) :
    (row.declared s).Perm (row.declared t) := by
  cases hb with
  | types => exact h.types
  | elements => exact h.elements
  | groups => exact h.groups
  | attributes => exact h.attributes
  | attributeGroups => exact h.attributeGroups

theorem references : s.references.Perm t.references :=
  ((((h.types.flatMap_right _).append (h.elements.flatMap_right _)).append
    (h.groups.flatMap_right _)).append (h.attributes.flatMap_right _)).append
      (h.attributeGroups.flatMap_right _)

end Schema.Rearranges

namespace File.Rearranges

variable {f g : File} (h : f.Rearranges g)
include h

theorem symm : g.Rearranges f := ⟨h.filename.symm, h.identifier.symm, h.schema.symm⟩

theorem space : f.space = g.space := h.schema.targetSpace

theorem resembles : f.Resembles g where
  filename := h.filename
  identifier := h.identifier
  spaces := by
    rw [spacesAround, spacesAround, h.space, Schema.importedSpaces, Schema.importedSpaces,
      h.schema.imports, h.schema.targetSpace]

end File.Rearranges

/-- The files of two catalogs are alike, one by one. -/
def Catalog.Rearranges (c d : Catalog) : Prop := List.Forall₂ File.Rearranges c.files d.files

namespace Catalog.Rearranges

variable {c d : Catalog} {resolution : Resolution} (h : c.Rearranges d)
include h

theorem symm : d.Rearranges c := h.flip.imp fun _ _ hfg => hfg.symm

theorem names {α : Type} {row : Row α} (hb : row.IsBasic) :
    (row.names c.files).Perm (row.names d.files) := by
  unfold Catalog.Rearranges at h
  unfold Row.names
  generalize c.files = fs, d.files = gs at h
  induction h with
  | nil => exact .refl _
  | cons hfg _ ih =>
      rw [List.flatMap_cons, List.flatMap_cons]
      exact ((hfg.schema.declared hb).map _).append ih

theorem declares (space : String) : c.declares space = d.declares space := by
  unfold Catalog.Rearranges at h
  rw [Catalog.declares_eq, Catalog.declares_eq]
  generalize c.files = fs, d.files = gs at h
  induction h with
  | nil => rfl
  | cons hfg _ ih => rw [List.any_cons, List.any_cons, ih, hfg.space]

theorem contains (kind : DeclarationKind) (q : QName) :
    (ofCatalog c resolution).1.declarations.contains kind q =
      (ofCatalog d resolution).1.declarations.contains kind q := by
  have hrow : ∀ {α : Type} {row : Row α}, row.IsBasic →
      (ofCatalog c resolution).1.declarations.contains row.kind q =
        (ofCatalog d resolution).1.declarations.contains row.kind q := fun {_ row} hb => by
    rw [Bool.eq_iff_iff, contains_ofCatalog_iff c resolution row, (h.names hb).mem_iff,
      contains_ofCatalog_iff d resolution row]
  rcases kind with _ | _ | _ | _ | _
  · exact hrow .types
  · exact hrow .elements
  · exact hrow .groups
  · exact hrow .attributes
  · exact hrow .attributeGroups

/-- From files that are alike, a name stands for the same. -/
theorem resolve? {f g : File} (hfg : f.Resembles g) (kind : DeclarationKind) (name : QName) :
    (ofCatalog c resolution).1.resolve? kind f name =
      (ofCatalog d resolution).1.resolve? kind g name :=
  resolve?_congr (l := (ofCatalog c resolution).1) (m := (ofCatalog d resolution).1) rfl h.contains
    hfg kind name

theorem usesIn {f g : File} (hfg : f.Rearranges g) (q : QName) :
    (ofCatalog c resolution).1.usesIn q f = (ofCatalog d resolution).1.usesIn q g := by
  refine (hfg.schema.references.countP_eq _).trans (List.countP_congr fun r _ => ?_)
  rw [isUseOf, isUseOf, h.resolve? hfg.resembles]

/-- A model group is referred to equally often. -/
theorem groupUseCount (q : QName) : (ofCatalog c resolution).1.groupUseCount q =
    (ofCatalog d resolution).1.groupUseCount q := by
  have huses : c.files.map ((ofCatalog c resolution).1.usesIn q) =
      d.files.map ((ofCatalog d resolution).1.usesIn q) :=
    Conversion.map_eq_of_forall₂ h fun f _ g _ hfg => h.usesIn hfg q
  rw [groupUseCount_ofCatalog, groupUseCount_ofCatalog, huses]

/-- Where all names are different, the first linkage corresponds to the second one. -/
theorem corresponds
    (hn : ∀ {α : Type} (row : Row α), row.IsBasic → (row.names d.files).Nodup) :
    (ofCatalog c resolution).1.Corresponds (ofCatalog d resolution).1 where
  linked := isLinked_ofCatalog c resolution
  sees htwins r _ := h.resolve? htwins.toResembles r.kind r.name
  declares row hb q a ha := by
    obtain ⟨hf, hd, rfl⟩ := located_of_find? row ha
    obtain ⟨g, hg, hfg⟩ := Conversion.exists_entry h hf
    have hd' := (hfg.schema.declared hb).mem_iff.1 hd
    exact ⟨⟨g, a.declaration⟩, find?_of_names resolution hn row hg hd',
      ⟨hfg.resembles, hf, hg⟩, rfl⟩
  reuses q _ := by rw [isReused, isReused, h.groupUseCount]

/-- Where all names are different, the linkages match. -/
theorem fits
    (hn : ∀ {α : Type} (row : Row α), row.IsBasic → (row.names d.files).Nodup) :
    (ofCatalog c resolution).1.Matches (ofCatalog d resolution).1 :=
  ⟨h.corresponds hn, h.symm.corresponds fun row hb => (h.names hb).nodup_iff.2 (hn row hb)⟩

/-- Files that differ in the order of their declarations link if the first ones do. -/
theorem links (hl : Links d resolution) : Links c resolution where
  names row hb := (h.names hb).nodup_iff.2 (hl.names row hb)
  imports f hf := by
    obtain ⟨g, hg, hfg⟩ := Conversion.exists_entry h hf
    have hanswered := importProblems_eq_nil_iff.1 (hl.imports g hg)
    rw [← hfg.schema.imports] at hanswered
    exact importProblems_eq_nil_iff.2 fun i hi =>
      (hanswered i hi).imp_right fun hdeclared => (h.declares i.space).trans hdeclared
  references f hf r hr := by
    obtain ⟨g, hg, hfg⟩ := Conversion.exists_entry h hf
    rw [h.resolve? hfg.resembles]
    exact hl.references g hg r (hfg.schema.references.mem_iff.1 hr)
  cycles := by
    have hnames : ∀ {α : Type} (row : Row α), row.IsBasic → (row.names c.files).Nodup :=
      fun row hb => (h.names hb).nodup_iff.2 (hl.names row hb)
    refine (h.fits hl.names).cycles_eq_nil (fun {_ row} hb => ?_) hl.cycles
    have hkeys := keys_perm resolution hnames hb
    have hkeys' := keys_perm resolution hl.names hb
    refine ⟨hkeys.nodup_iff.2 (hnames row hb), ?_⟩
    have hlength := (hkeys.trans ((h.names hb).trans hkeys'.symm)).length_eq
    rwa [Table.keys, Table.keys, List.length_map, List.length_map] at hlength

end Catalog.Rearranges

end Crosswalk
