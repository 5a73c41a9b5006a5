import Crosswalk.Proofs.Linkage.Resolution

/-!
# When a batch links

Linking reports something fatal unless the declarations of each kind have different names, a file
answers every import, every reference stands for something, and no declaration loops back on itself.
What it reports is fatal in strict resolution, so that a batch that links has nothing to report.
-/

namespace Crosswalk

namespace Declarations

variable {α : Type} {kind : DeclarationKind} {name : α → QName}

/-- The names of the declarations of one kind in some files. -/
def Row.names (row : Row α) (files : List File) : List QName :=
  files.flatMap fun file => (row.declared file.schema).map row.name

theorem Row.names_cons (row : Row α) (file : File) (files : List File) :
    row.names (file :: files) = (row.declared file.schema).map row.name ++ row.names files :=
  List.flatMap_cons

/-- Declarations can be added without a problem if and only if all names are different; then the
names are those that were there and those that were added. -/
theorem declareAll_eq_nil_iff {file : File} (declarations : List α)
    {table : Table QName (Located α)} (hn : (Table.keys table).Nodup) :
    ((declareAll kind file name declarations table).2 = [] ↔
      (Table.keys table ++ declarations.map name).Nodup) ∧
    ((declareAll kind file name declarations table).2 = [] →
      (Table.keys (declareAll kind file name declarations table).1).Perm
        (Table.keys table ++ declarations.map name)) := by
  induction declarations generalizing table with
  | nil => simp [declareAll, hn]
  | cons d rest ih =>
      rw [declareAll_cons, List.map_cons]
      dsimp only
      cases hf : Table.find? table (name d) with
      | some first =>
          have hm : name d ∈ Table.keys table :=
            Table.contains_iff.1 (by rw [Table.contains, hf]; rfl)
          have hdup : ¬ (Table.keys table ++ name d :: rest.map name).Nodup := fun h =>
            (List.nodup_append.1 h).2.2 _ hm _ List.mem_cons_self rfl
          simp [declare, hf, hdup]
      | none =>
          have hfree : name d ∉ Table.keys table := Table.find?_eq_none_iff.1 hf
          have hkeys : (Table.keys (table.insert (name d) ⟨file, d⟩)).Perm
              (name d :: Table.keys table) := (Table.insert_perm _ hfree).map _
          have hperm : (Table.keys (table.insert (name d) ⟨file, d⟩) ++ rest.map name).Perm
              (Table.keys table ++ name d :: rest.map name) :=
            (hkeys.append_right _).trans List.perm_middle.symm
          obtain ⟨hiff, hnames⟩ := ih (hkeys.nodup_iff.2 (List.nodup_cons.2 ⟨hfree, hn⟩))
          rw [show declare kind file (name d) d table =
            (table.insert (name d) ⟨file, d⟩, []) by rw [declare, hf]]
          exact ⟨hiff.trans hperm.nodup_iff, fun h => (hnames h).trans hperm⟩

theorem addFile_eq_nil_iff {d : Declarations} {file : File} :
    (d.addFile file).2 = [] ↔ ∀ {α : Type} (row : Row α), row.IsBasic →
      (declareAll row.kind file row.name (row.declared file.schema) (row.table d)).2 = [] := by
  constructor
  · exact fun h _ row _ => List.subset_nil.1 (h ▸ row.addFile_problems d file)
  · intro h
    have htypes := h .types .types
    have helements := h .elements .elements
    have hgroups := h .groups .groups
    have hattributes := h .attributes .attributes
    have hattributeGroups := h .attributeGroups .attributeGroups
    simp only [Row.types, Row.elements, Row.groups, Row.attributes, Row.attributeGroups] at *
    simp only [addFile, htypes, helements, hgroups, hattributes, hattributeGroups, List.append_nil]

section

variable {d : Declarations} {file : File}
  (hn : ∀ {α : Type} (row : Row α), row.IsBasic → (Table.keys (row.table d)).Nodup)
  (h : (d.addFile file).2 = [])
include hn h

/-- The names are those that were there and those of the file. -/
theorem keys_addFile_perm (row : Row α) (hb : row.IsBasic) :
    (Table.keys (row.table (d.addFile file).1)).Perm
      (Table.keys (row.table d) ++ (row.declared file.schema).map row.name) := by
  rw [row.addFile_table]
  exact (declareAll_eq_nil_iff _ (hn row hb)).2 (addFile_eq_nil_iff.1 h row hb)

theorem keys_addFile_nodup (row : Row α) (hb : row.IsBasic) :
    (Table.keys (row.table (d.addFile file).1)).Nodup :=
  (keys_addFile_perm hn h row hb).nodup_iff.2
    ((declareAll_eq_nil_iff _ (hn row hb)).1.1 (addFile_eq_nil_iff.1 h row hb))

end

theorem addFiles_eq_nil_iff (files : List File) : ∀ {d : Declarations},
    (∀ {α : Type} (row : Row α), row.IsBasic → (Table.keys (row.table d)).Nodup) →
    ((d.addFiles files).2 = [] ↔ ∀ {α : Type} (row : Row α), row.IsBasic →
      (Table.keys (row.table d) ++ row.names files).Nodup) ∧
    ((d.addFiles files).2 = [] → ∀ {α : Type} (row : Row α), row.IsBasic →
      (Table.keys (row.table (d.addFiles files).1)).Perm
        (Table.keys (row.table d) ++ row.names files)) := by
  induction files with
  | nil =>
      intro d hn
      have hnames : ∀ {α : Type} (row : Row α),
          Table.keys (row.table d) ++ row.names [] = Table.keys (row.table d) :=
        fun _ => List.append_nil _
      exact ⟨⟨fun _ _ row hb => (hnames row).symm ▸ hn row hb, fun _ => rfl⟩,
        fun _ _ row _ => (hnames row).symm ▸ .refl _⟩
  | cons file rest ih =>
      intro d hn
      have hnames : ∀ {α : Type} (row : Row α),
          Table.keys (row.table d) ++ row.names (file :: rest) =
            Table.keys (row.table d) ++ (row.declared file.schema).map row.name ++
              row.names rest := fun row => by rw [row.names_cons, List.append_assoc]
      -- Once the file is added, the names that were there are those of before and its own.
      have hadded : (d.addFile file).2 = [] → ∀ {α : Type} (row : Row α), row.IsBasic →
          (Table.keys (row.table (d.addFile file).1) ++ row.names rest).Perm
            (Table.keys (row.table d) ++ row.names (file :: rest)) := fun h _ row hb =>
        hnames row ▸ (keys_addFile_perm hn h row hb).append_right _
      rw [addFiles_cons]
      dsimp only
      rw [List.append_eq_nil_iff]
      constructor
      · constructor
        · rintro ⟨hfile, hrest⟩ _ row hb
          rw [← (hadded hfile row hb).nodup_iff]
          exact (ih (keys_addFile_nodup hn hfile)).1.1 hrest row hb
        · intro h
          have hfile : (d.addFile file).2 = [] := addFile_eq_nil_iff.2 fun row hb =>
            (declareAll_eq_nil_iff _ (hn row hb)).1.2
              (List.nodup_append.1 (hnames row ▸ h row hb)).1
          refine ⟨hfile, (ih (keys_addFile_nodup hn hfile)).1.2 fun row hb => ?_⟩
          rw [(hadded hfile row hb).nodup_iff]
          exact h row hb
      · rintro ⟨hfile, hrest⟩ _ row hb
        exact ((ih (keys_addFile_nodup hn hfile)).2 hrest row hb).trans (hadded hfile row hb)

theorem isFatal_of_mem_addFile {d : Declarations} {file : File} {p : Problem}
    (h : p ∈ (d.addFile file).2) : p.isFatal = true := by
  simp only [addFile, List.mem_append] at h
  rcases h with (((h | h) | h) | h) | h <;> exact isFatal_of_mem_declareAll _ h

theorem isFatal_of_mem_addFiles (files : List File) : ∀ {d : Declarations} {p : Problem},
    p ∈ (d.addFiles files).2 → p.isFatal = true := by
  induction files with
  | nil => exact fun h => absurd h List.not_mem_nil
  | cons file rest ih =>
      intro d p h
      rw [addFiles_cons] at h
      exact (List.mem_append.1 h).elim isFatal_of_mem_addFile ih

end Declarations

namespace Linkage

open Declarations

variable {catalog : Catalog} {resolution : Resolution} {l : Linkage}

/-- The files of a batch link. -/
structure Links (catalog : Catalog) (resolution : Resolution) : Prop where
  names : ∀ {α : Type} (row : Row α), row.IsBasic → (row.names catalog.files).Nodup
  imports : ∀ file ∈ catalog.files, importProblems catalog file = []
  references : ∀ file ∈ catalog.files, ∀ r ∈ file.schema.references,
    ((ofCatalog catalog resolution).1.resolve? r.kind file r.name).isSome = true
  cycles : (ofCatalog catalog resolution).1.cycles = []

theorem isFatal_of_mem_importProblems {file : File} {p : Problem}
    (h : p ∈ importProblems catalog file) : p.isFatal = true := by
  obtain ⟨i, -, hi⟩ := List.mem_filterMap.1 h
  split at hi
  · exact nomatch hi
  · rw [Catalog.resolveImport_eq] at hi
    split at hi
    · exact nomatch hi
    · next heq =>
        split at heq
        · exact nomatch heq
        · exact Option.some.inj hi ▸ Except.error.inj heq ▸ rfl

/-- Every import is answered if some file declares its namespace, unless that is the one of XML Schema
itself. -/
theorem importProblems_eq_nil_iff {file : File} : importProblems catalog file = [] ↔
    ∀ i ∈ file.schema.imports, (i.kind = .imported ∧ i.space = QName.xsdSpace) ∨
      catalog.declares i.space = true := by
  rw [importProblems, List.filterMap_eq_nil_iff]
  refine forall₂_congr fun i _ => ?_
  rw [Catalog.resolveImport_eq]
  split
  · next hxsd => exact ⟨fun _ => .inl hxsd, fun _ => rfl⟩
  · next hxsd =>
      rw [or_iff_right hxsd]
      cases catalog.declares i.space <;> simp

theorem isFatal_of_mem_typeCycles (entries : List (QName × Located NamedType)) :
    ∀ {known : List QName} {p : Problem}, p ∈ l.typeCycles known entries → p.isFatal = true := by
  induction entries with
  | nil => exact fun h => absurd h List.not_mem_nil
  | cons entry rest ih =>
      intro known p h
      unfold typeCycles at h
      split at h
      · exact ih h
      · split at h
        · exact (List.mem_cons.1 h).elim (fun heq => heq ▸ rfl) ih
        · exact ih h

theorem isFatal_of_mem_cycles {p : Problem} (h : p ∈ l.cycles) : p.isFatal = true := by
  rcases List.mem_append.1 h with h | h
  · exact isFatal_of_mem_typeCycles _ h
  · obtain ⟨⟨name, located⟩, -, he⟩ := List.mem_filterMap.1 h
    dsimp only at he
    split at he
    · exact Option.some.inj he ▸ rfl
    · exact nomatch he

theorem Tally.mem_of_report {t : Tally} {file : File} {r : Reference} {p q : Problem}
    (h : q ∈ (t.report file r p).problems) : q ∈ t.problems ∨ q = p := by
  unfold Tally.report at h
  dsimp only at h
  split at h
  · exact .inl h
  · exact (List.mem_append.1 h).imp_right List.mem_singleton.1

/-- A reference that stands for something gives no problem but, in lenient resolution, one that is
not fatal. -/
theorem problems_follow {t : Tally} {file : File} {r : Reference}
    (h : (l.resolve? r.kind file r.name).isSome = true) :
    (∀ p ∈ (l.follow t (file, r)).problems, p ∈ t.problems ∨ p.isFatal = false) ∧
      (l.resolution = .strict → (l.follow t (file, r)).problems = t.problems) := by
  obtain ⟨resolved, hr⟩ := Option.isSome_iff_exists.1 h
  have hcount : (if r.kind = .group then t.count resolved.name else t).problems = t.problems := by
    split <;> rfl
  unfold follow
  simp only [hr]
  generalize (if r.kind = .group then t.count resolved.name else t) = counted at hcount ⊢
  refine ⟨fun p hp => ?_, fun hs => ?_⟩
  · rw [← hcount]
    split at hp
    · refine (Tally.mem_of_report hp).imp_right ?_
      rintro rfl
      rfl
    · exact .inl hp
  · rw [resolve?_strict hs hr]
    exact hcount

theorem problems_foldl (uses : List (File × Reference))
    (h : ∀ use ∈ uses, (l.resolve? use.2.kind use.1 use.2.name).isSome = true) (t : Tally) :
    (∀ p ∈ (uses.foldl l.follow t).problems, p ∈ t.problems ∨ p.isFatal = false) ∧
      (l.resolution = .strict → (uses.foldl l.follow t).problems = t.problems) := by
  induction uses generalizing t with
  | nil => exact ⟨fun _ hp => .inl hp, fun _ => rfl⟩
  | cons use rest ih =>
      rw [List.forall_mem_cons] at h
      obtain ⟨hnew, hsame⟩ := problems_follow (t := t) (r := use.2) h.1
      obtain ⟨hnews, hsames⟩ := ih h.2 (l.follow t use)
      exact ⟨fun p hp => (hnews p hp).elim (hnew p) .inr,
        fun hs => (hsames hs).trans (hsame hs)⟩

theorem keys_table_empty {α : Type} (row : Row α) : Table.keys (row.table {}) = [] := by
  rw [row.table_empty]
  rfl

theorem addFiles_empty_eq_nil_iff {files : List File} :
    (({} : Declarations).addFiles files).2 = [] ↔
      ∀ {α : Type} (row : Row α), row.IsBasic → (row.names files).Nodup := by
  have h := (addFiles_eq_nil_iff files (d := {}) fun row _ =>
    keys_table_empty row ▸ List.nodup_nil).1
  simp only [keys_table_empty, List.nil_append] at h
  exact h

/-- Of declarations with different names, each has an entry of its own. -/
theorem keys_perm (resolution : Resolution)
    (h : ∀ {α : Type} (row : Row α), row.IsBasic → (row.names catalog.files).Nodup)
    {α : Type} {row : Row α} (hb : row.IsBasic) :
    (Table.keys (row.table (ofCatalog catalog resolution).1.declarations)).Perm
      (row.names catalog.files) := by
  have hperm := (addFiles_eq_nil_iff catalog.files fun row _ =>
    keys_table_empty row ▸ List.nodup_nil).2 (addFiles_empty_eq_nil_iff.2 h) row hb
  rwa [keys_table_empty, List.nil_append] at hperm

/-- A name is declared if and only if some file declares it. -/
theorem contains_ofCatalog_iff (catalog : Catalog) (resolution : Resolution) {α : Type}
    (row : Row α) (q : QName) :
    (ofCatalog catalog resolution).1.declarations.contains row.kind q = true ↔
      q ∈ row.names catalog.files := by
  have hmem : q ∈ row.names catalog.files ↔
      ∃ file ∈ catalog.files, ∃ d ∈ row.declared file.schema, row.name d = q := by
    simp [Row.names]
  rw [hmem]
  constructor
  · intro hc
    rw [row.contains_table, Table.contains, Option.isSome_iff_exists] at hc
    obtain ⟨located, hl⟩ := hc
    obtain ⟨hf, hd, hn⟩ := located_of_find? row hl
    exact ⟨located.file, hf, located.declaration, hd, hn⟩
  · rintro ⟨file, hf, d, hd, rfl⟩
    rw [row.contains_table]
    exact (isLinked_ofCatalog catalog resolution).declared row hf d hd

/-- Where all names are different, every declaration is found under its own. -/
theorem find?_of_names (resolution : Resolution)
    (h : ∀ {α : Type} (row : Row α), row.IsBasic → (row.names catalog.files).Nodup) {α : Type}
    (row : Row α) {file : File} (hf : file ∈ catalog.files) {d : α}
    (hd : d ∈ row.declared file.schema) :
    (row.table (ofCatalog catalog resolution).1.declarations).find? (row.name d) =
      some ⟨file, d⟩ := by
  have hfine : ∀ p ∈ (({} : Declarations).addFiles catalog.files).2, p.isFatal = false := by
    rw [addFiles_empty_eq_nil_iff.2 h]
    exact List.forall_mem_nil _
  exact row.find?_addFiles catalog.files hfine (.inr ⟨hf, hd, rfl⟩)

theorem mem_allReferences {file : File} {r : Reference} :
    (file, r) ∈ allReferences catalog ↔ file ∈ catalog.files ∧ r ∈ file.schema.references := by
  simp [allReferences]

/-- Files link if and only if linking them reports nothing fatal. -/
theorem links_iff (hd : ∀ f ∈ catalog.files, ∀ g ∈ catalog.files, f.filename = g.filename → f = g) :
    Links catalog resolution ↔ ∀ p ∈ (ofCatalog catalog resolution).2, p.isFatal = false := by
  have none_of : ∀ {problems : List Problem}, (∀ p ∈ problems, p.isFatal = true) →
      (∀ p ∈ problems, p.isFatal = false) → problems = [] := fun hfatal hfine =>
    List.eq_nil_iff_forall_not_mem.2 fun p hp =>
      Bool.false_ne_true ((hfine p hp).symm.trans (hfatal p hp))
  constructor
  · intro h
    simp only [ofCatalog, List.forall_mem_append]
    refine ⟨⟨⟨?_, ?_⟩, fun p hp => ?_⟩, ?_⟩
    · rw [addFiles_empty_eq_nil_iff.2 h.names]
      exact List.forall_mem_nil _
    · rw [List.flatMap_eq_nil_iff.2 h.imports]
      exact List.forall_mem_nil _
    · refine ((problems_foldl (allReferences catalog) (fun use hu => ?_) {}).1 p hp).resolve_left
        List.not_mem_nil
      obtain ⟨hf, hr⟩ := mem_allReferences.1 hu
      exact h.references use.1 hf use.2 hr
    · have hcycles := h.cycles
      rw [ofCatalog] at hcycles
      rw [hcycles]
      exact List.forall_mem_nil _
  · intro h
    have hfine := h
    simp only [ofCatalog, List.forall_mem_append] at hfine
    obtain ⟨⟨⟨hnames, himports⟩, -⟩, hcycles⟩ := hfine
    refine ⟨?_, ?_, fun file hf r hr => resolves_of_ofCatalog hd h hf hr, ?_⟩
    · exact addFiles_empty_eq_nil_iff.1 (none_of (fun _ => isFatal_of_mem_addFiles _) hnames)
    · refine List.flatMap_eq_nil_iff.1 (none_of (fun p hp => ?_) himports)
      obtain ⟨file, -, hp⟩ := List.mem_flatMap.1 hp
      exact isFatal_of_mem_importProblems hp
    · exact none_of (fun _ => isFatal_of_mem_cycles) hcycles

/-- In strict resolution there is nothing to report of files that link. -/
theorem Links.problems_eq_nil (h : Links catalog .strict) : (ofCatalog catalog .strict).2 = [] := by
  have htally := (problems_foldl
    (l := ⟨catalog, .strict, (({} : Declarations).addFiles catalog.files).1, []⟩)
    (allReferences catalog) (fun use hu => by
      obtain ⟨hf, hr⟩ := mem_allReferences.1 hu
      exact h.references use.1 hf use.2 hr) {}).2 rfl
  have hcycles := h.cycles
  simp only [ofCatalog] at hcycles ⊢
  rw [addFiles_empty_eq_nil_iff.2 h.names, List.flatMap_eq_nil_iff.2 h.imports, htally, hcycles]
  rfl

end Linkage

end Crosswalk
