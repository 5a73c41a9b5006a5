import Crosswalk.Linkage.Basic
import Crosswalk.Proofs.Table

/-!
# What a linkage finds

A declaration that a linkage finds is one of a file of its catalog, whatever kind it is of and
whichever rule led from the name to it. If linking reports no name that is declared twice, the
declarations of one kind all have different names, and each is found under its own.
-/

namespace Crosswalk

namespace Declarations

variable {α : Type} {kind : DeclarationKind} {name : α → QName}

/-- The entry of a table that a declaration of a file makes. -/
def IsEntry (name : α → QName) (file : File) (declarations : List α)
    (entry : QName × Located α) : Prop :=
  entry.2.file = file ∧ entry.2.declaration ∈ declarations ∧ entry.1 = name entry.2.declaration

theorem declareAll_cons (file : File) (d : α) (rest : List α) (table : Table QName (Located α)) :
    declareAll kind file name (d :: rest) table =
      ((declareAll kind file name rest (declare kind file (name d) d table).1).1,
        (declare kind file (name d) d table).2 ++
          (declareAll kind file name rest (declare kind file (name d) d table).1).2) := rfl

theorem addFiles_cons (d : Declarations) (file : File) (rest : List File) :
    d.addFiles (file :: rest) = (((d.addFile file).1.addFiles rest).1,
      (d.addFile file).2 ++ ((d.addFile file).1.addFiles rest).2) := rfl

theorem mem_declareAll {file : File} (declarations : List α) {table : Table QName (Located α)}
    {entry : QName × Located α} (h : entry ∈ (declareAll kind file name declarations table).1) :
    entry ∈ table ∨ IsEntry name file declarations entry := by
  induction declarations generalizing table with
  | nil => exact .inl h
  | cons d rest ih =>
      rw [declareAll_cons] at h
      rcases ih h with h | ⟨hf, hd, hn⟩
      · unfold declare at h
        split at h
        · exact .inl h
        · rcases Table.mem_insert h with rfl | h
          · exact .inr ⟨rfl, List.mem_cons_self, rfl⟩
          · exact .inl h
      · exact .inr ⟨hf, List.mem_cons_of_mem _ hd, hn⟩

/-- The declarations of one kind: where a file lists them, and the table that they go to. -/
structure Row (α : Type) where
  kind : DeclarationKind
  name : α → QName
  declared : Schema → List α
  table : Declarations → Table QName (Located α)
  table_empty : table {} = []
  contains_table : ∀ (d : Declarations) (q : QName), d.contains kind q = (table d).contains q
  addFile_table : ∀ (d : Declarations) (file : File), table (d.addFile file).1 =
    (declareAll kind file name (declared file.schema) (table d)).1
  addFile_problems : ∀ (d : Declarations) (file : File),
    (declareAll kind file name (declared file.schema) (table d)).2 ⊆ (d.addFile file).2

/-- The named types. -/
def Row.types : Row NamedType where
  kind := .type
  name := NamedType.name
  declared := Schema.types
  table := Declarations.types
  table_empty := rfl
  contains_table _ _ := rfl
  addFile_table _ _ := rfl
  addFile_problems d file p hp := by
    simp only [addFile, List.mem_append]
    tauto

/-- The global elements. -/
def Row.elements : Row Element where
  kind := .element
  name := Element.name
  declared := Schema.elements
  table := Declarations.elements
  table_empty := rfl
  contains_table _ _ := rfl
  addFile_table _ _ := rfl
  addFile_problems d file p hp := by
    simp only [addFile, List.mem_append]
    tauto

/-- The model groups. -/
def Row.groups : Row NamedGroup where
  kind := .group
  name := NamedGroup.name
  declared := Schema.groups
  table := Declarations.groups
  table_empty := rfl
  contains_table _ _ := rfl
  addFile_table _ _ := rfl
  addFile_problems d file p hp := by
    simp only [addFile, List.mem_append]
    tauto

/-- The global attributes. -/
def Row.attributes : Row Attribute where
  kind := .attribute
  name := Attribute.name
  declared := Schema.attributes
  table := Declarations.attributes
  table_empty := rfl
  contains_table _ _ := rfl
  addFile_table _ _ := rfl
  addFile_problems d file p hp := by
    simp only [addFile, List.mem_append]
    tauto

/-- The attribute groups. -/
def Row.attributeGroups : Row AttributeGroup where
  kind := .attributeGroup
  name := AttributeGroup.name
  declared := Schema.attributeGroups
  table := Declarations.attributeGroups
  table_empty := rfl
  contains_table _ _ := rfl
  addFile_table _ _ := rfl
  addFile_problems d file p hp := by
    simp only [addFile, List.mem_append]
    tauto

/-- The rows of the kinds that there are. -/
inductive Row.IsBasic : {α : Type} → Row α → Prop
  | types : IsBasic .types
  | elements : IsBasic .elements
  | groups : IsBasic .groups
  | attributes : IsBasic .attributes
  | attributeGroups : IsBasic .attributeGroups

namespace Row

variable (row : Row α)

theorem mem_addFiles (files : List File) {d : Declarations} {entry : QName × Located α}
    (h : entry ∈ row.table (d.addFiles files).1) :
    entry ∈ row.table d ∨
      ∃ file ∈ files, IsEntry row.name file (row.declared file.schema) entry := by
  induction files generalizing d with
  | nil => exact .inl h
  | cons file rest ih =>
      rw [addFiles_cons] at h
      rcases ih h with h | ⟨other, ho, he⟩
      · rw [row.addFile_table] at h
        exact (mem_declareAll _ h).imp_right fun he => ⟨file, List.mem_cons_self, he⟩
      · exact .inr ⟨other, List.mem_cons_of_mem _ ho, he⟩

end Row

/-- Declarations that can be added without a problem have different names. -/
theorem nodup_of_declareAll (kind : DeclarationKind) (file : File) (declarations : List α)
    (table : Table QName (Located α))
    (h : (declareAll kind file name declarations table).2 = []) :
    (declarations.map name).Nodup ∧ ∀ d ∈ declarations, Table.find? table (name d) = none := by
  induction declarations generalizing table with
  | nil => simp
  | cons d rest ih =>
      rw [declareAll_cons] at h
      obtain ⟨hd, hr⟩ := List.append_eq_nil_iff.1 h
      unfold declare at hd hr
      split at hd
      · simp at hd
      · next free =>
          simp only [free] at hr
          obtain ⟨hnodup, hfree⟩ := ih _ hr
          have hne : ∀ e ∈ rest, name e ≠ name d := by
            intro e he heq
            have := hfree e he
            rw [heq, Table.find?_insert_self] at this
            simp at this
          refine ⟨List.nodup_cons.2 ⟨fun hm => ?_, hnodup⟩, fun e he => ?_⟩
          · obtain ⟨e, he, heq⟩ := List.mem_map.1 hm
            exact hne e he heq
          · rcases List.mem_cons.1 he with rfl | he
            · exact free
            · rw [← hfree e he, Table.find?_insert_of_ne _ _ (hne e he)]

/-- Declarations that can be added without a problem are all found, and what was there stays. -/
theorem find?_declareAll {file : File} {declarations : List α} {table : Table QName (Located α)}
    (h : (declareAll kind file name declarations table).2 = []) {q : QName} {located : Located α}
    (hq : table.find? q = some located ∨ ∃ d ∈ declarations, name d = q ∧ located = ⟨file, d⟩) :
    (declareAll kind file name declarations table).1.find? q = some located := by
  induction declarations generalizing table with
  | nil => simpa [declareAll] using hq
  | cons d rest ih =>
      rw [declareAll_cons] at h ⊢
      obtain ⟨hd, hr⟩ := List.append_eq_nil_iff.1 h
      refine ih hr ?_
      unfold declare at hd ⊢
      split at hd
      · simp at hd
      · next free =>
          dsimp only
          rcases hq with hq | ⟨e, he, rfl, rfl⟩
          · have hne : q ≠ name d := fun heq => by simp [← heq, hq] at free
            exact .inl ((Table.find?_insert_of_ne _ _ hne).trans hq)
          · rcases List.mem_cons.1 he with rfl | he
            · exact .inl (Table.find?_insert_self _ _ _)
            · exact .inr ⟨e, he, rfl, rfl⟩

theorem isFatal_of_mem_declareAll {file : File} (declarations : List α)
    {table : Table QName (Located α)} {p : Problem}
    (h : p ∈ (declareAll kind file name declarations table).2) : p.isFatal = true := by
  induction declarations generalizing table with
  | nil => simp [declareAll] at h
  | cons d rest ih =>
      rw [declareAll_cons] at h
      rcases List.mem_append.1 h with h | h
      · unfold declare at h
        split at h
        · exact List.mem_singleton.1 h ▸ rfl
        · simp at h
      · exact ih h

theorem Row.declareAll_eq_nil (row : Row α) {d : Declarations} {file : File}
    (h : ∀ p ∈ (d.addFile file).2, p.isFatal = false) :
    (declareAll row.kind file row.name (row.declared file.schema) (row.table d)).2 = [] := by
  refine List.eq_nil_iff_forall_not_mem.2 fun p hp => ?_
  have hfatal := isFatal_of_mem_declareAll _ hp
  rw [h p (row.addFile_problems d file hp)] at hfatal
  exact Bool.false_ne_true hfatal

/-- Where no name is declared twice, every declaration is found under its name. -/
theorem Row.find?_addFiles (row : Row α) (files : List File) {d : Declarations}
    (h : ∀ p ∈ (d.addFiles files).2, p.isFatal = false) {q : QName} {located : Located α}
    (hq : (row.table d).find? q = some located ∨ (located.file ∈ files ∧
      located.declaration ∈ row.declared located.file.schema ∧ row.name located.declaration = q)) :
    (row.table (d.addFiles files).1).find? q = some located := by
  induction files generalizing d with
  | nil => exact hq.elim id fun hq => absurd hq.1 List.not_mem_nil
  | cons first rest ih =>
      rw [addFiles_cons] at h ⊢
      rw [List.forall_mem_append] at h
      refine ih h.2 ?_
      rw [row.addFile_table]
      have hfirst := row.declareAll_eq_nil h.1
      rcases hq with hq | ⟨hf, hd, hn⟩
      · exact .inl (find?_declareAll hfirst (.inl hq))
      · rcases List.mem_cons.1 hf with rfl | hf
        · exact .inl (find?_declareAll hfirst (.inr ⟨_, hd, hn, rfl⟩))
        · exact .inr ⟨hf, hd, hn⟩

/-- Where no name is declared twice, the declarations of one kind in a file have different names. -/
theorem Row.nodup (row : Row α) (files : List File) {d : Declarations}
    (h : ∀ p ∈ (d.addFiles files).2, p.isFatal = false) {file : File} (hf : file ∈ files) :
    ((row.declared file.schema).map row.name).Nodup := by
  induction files generalizing d with
  | nil => simp at hf
  | cons first rest ih =>
      rw [addFiles_cons, List.forall_mem_append] at h
      rcases List.mem_cons.1 hf with rfl | hf
      · exact (nodup_of_declareAll row.kind file _ (row.table d) (row.declareAll_eq_nil h.1)).1
      · exact ih h.2 hf

end Declarations

namespace Linkage

open Declarations

variable {catalog : Catalog} {resolution : Resolution}

/-- A declaration in a table of a linkage is one of a file of the catalog. -/
theorem located_of_find? {α : Type} (row : Row α) {name : QName} {located : Located α}
    (h : Table.find? (row.table (ofCatalog catalog resolution).1.declarations) name =
      some located) :
    located.file ∈ catalog.files ∧ located.declaration ∈ row.declared located.file.schema ∧
      row.name located.declaration = name := by
  rcases row.mem_addFiles catalog.files (Table.mem_of_find? h) with hm | ⟨file, hf, he, hd, hn⟩
  · simp [row.table_empty] at hm
  · exact he ▸ ⟨hf, hd, hn.symm⟩

theorem located_of_type? {file : File} {name : QName} {located : Located NamedType}
    (h : (ofCatalog catalog resolution).1.type? file name = some located) :
    located.file ∈ catalog.files ∧ located.declaration ∈ located.file.schema.types := by
  obtain ⟨r, -, hr⟩ := Option.bind_eq_some_iff.1 h
  obtain ⟨hf, hd, -⟩ := located_of_find? .types hr
  exact ⟨hf, hd⟩

theorem located_of_element? {file : File} {name : QName} {located : Located Element}
    (h : (ofCatalog catalog resolution).1.element? file name = some located) :
    located.file ∈ catalog.files ∧ located.declaration ∈ located.file.schema.elements := by
  obtain ⟨r, -, hr⟩ := Option.bind_eq_some_iff.1 h
  obtain ⟨hf, hd, -⟩ := located_of_find? .elements hr
  exact ⟨hf, hd⟩

theorem located_of_group? {file : File} {name : QName} {located : Located NamedGroup}
    (h : (ofCatalog catalog resolution).1.group? file name = some located) :
    located.file ∈ catalog.files ∧ located.declaration ∈ located.file.schema.groups := by
  obtain ⟨r, -, hr⟩ := Option.bind_eq_some_iff.1 h
  obtain ⟨hf, hd, -⟩ := located_of_find? .groups hr
  exact ⟨hf, hd⟩

theorem isFatal_addFiles (h : ∀ p ∈ (ofCatalog catalog resolution).2, p.isFatal = false) :
    ∀ p ∈ (({} : Declarations).addFiles catalog.files).2, p.isFatal = false := by
  intro p hp
  refine h p ?_
  simp only [ofCatalog, List.mem_append]
  exact .inl (.inl (.inl hp))

/-- Where linking reports nothing fatal, the types of a file have different names, and so have its
groups. -/
theorem nodup_of_ofCatalog {α : Type} (row : Row α)
    (h : ∀ p ∈ (ofCatalog catalog resolution).2, p.isFatal = false) {file : File}
    (hf : file ∈ catalog.files) : ((row.declared file.schema).map row.name).Nodup :=
  row.nodup catalog.files (isFatal_addFiles h) hf

/-- Where linking reports nothing fatal, no other declaration is found under the name of one. -/
theorem find?_of_ofCatalog {α : Type} (row : Row α)
    (h : ∀ p ∈ (ofCatalog catalog resolution).2, p.isFatal = false) {file : File}
    (hf : file ∈ catalog.files) {d : α} (hd : d ∈ row.declared file.schema) :
    (row.table (ofCatalog catalog resolution).1.declarations).find? (row.name d) =
      some ⟨file, d⟩ :=
  row.find?_addFiles catalog.files (isFatal_addFiles h) (.inr ⟨hf, hd, rfl⟩)

end Linkage

end Crosswalk
