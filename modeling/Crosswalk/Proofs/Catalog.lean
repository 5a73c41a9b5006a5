import Crosswalk.Batch
import Crosswalk.Proofs.Schema
import Crosswalk.Proofs.Table

/-!
# The files that a batch is made of

No two files of a batch have one name, and no two become documents of one name. A registry keeps
this, whatever is submitted and in whichever order schemas are attached; and the schemas it holds
are those that were read. Closing the registry hands it on to the catalog.
-/

namespace Crosswalk

namespace Registry

/-- The submissions are filed under their names, and become documents of different names. -/
structure IsApart (r : Registry) : Prop where
  sorted : Table.Sorted r.submissions
  filed : ∀ entry ∈ r.submissions, entry.2.filename = entry.1
  distinct : ∀ a ∈ r.submissions, ∀ b ∈ r.submissions,
    a.2.identifier = b.2.identifier → a.1 = b.1

/-- A file is taken on unless another one has its name, or becomes a document of the same name. -/
theorem clashes_eq_false_iff {r : Registry} {filename identifier : String} :
    r.clashes filename identifier = false ↔ filename ∉ Table.keys r.submissions ∧
      ∀ entry ∈ r.submissions, entry.2.identifier ≠ identifier := by
  rw [clashes, Bool.or_eq_false_iff, ← Bool.not_eq_true, Table.contains_iff]
  simp [Table.values]

theorem register_eq_ok_iff {r result : Registry} {filename identifier text : String} :
    r.register filename identifier text = .ok result ↔ r.clashes filename identifier = false ∧
      result = ⟨r.submissions.insert filename ⟨filename, identifier, text, none⟩⟩ := by
  unfold register
  split
  · next h => simp [h]
  · next h => simp [h, eq_comm]

namespace IsApart

variable {r : Registry}

theorem empty : IsApart Registry.empty :=
  ⟨.nil, by simp [Registry.empty], by simp [Registry.empty]⟩

theorem register (h : r.IsApart) {filename identifier text : String} {result : Registry}
    (hr : r.register filename identifier text = .ok result) : result.IsApart := by
  obtain ⟨hclash, rfl⟩ := register_eq_ok_iff.1 hr
  have hfresh := (clashes_eq_false_iff.1 hclash).2
  refine ⟨h.sorted.insert _ _, Table.forall_mem_insert h.filed rfl, fun a ha b hb heq => ?_⟩
  rcases Table.mem_insert ha with rfl | ha <;> rcases Table.mem_insert hb with rfl | hb
  · rfl
  · exact absurd heq.symm (hfresh b hb)
  · exact absurd heq (hfresh a ha)
  · exact h.distinct a ha b hb heq

theorem attach (h : r.IsApart) (filename : String) (schema : Schema) :
    (r.attach filename schema).IsApart := by
  unfold Registry.attach
  split
  · next s hfind =>
      have hmem := Table.mem_of_find? hfind
      refine ⟨h.sorted.insert _ _, Table.forall_mem_insert h.filed (h.filed (filename, s) hmem),
        fun a ha b hb heq => ?_⟩
      rcases Table.mem_insert ha with rfl | ha <;> rcases Table.mem_insert hb with rfl | hb
      · rfl
      · exact h.distinct (filename, s) hmem b hb heq
      · exact h.distinct a ha (filename, s) hmem heq
      · exact h.distinct a ha b hb heq
  · exact h

/-- The submission that is filed under a name is the only one of that name. -/
theorem find?_iff (h : r.IsApart) {filename : String} {s : Submission} :
    r.submissions.find? filename = some s ↔ s ∈ r.submissions.values ∧ s.filename = filename := by
  rw [Table.values, List.mem_map]
  constructor
  · intro hs
    have hmem := Table.mem_of_find? hs
    exact ⟨⟨_, hmem, rfl⟩, h.filed _ hmem⟩
  · rintro ⟨⟨entry, he, rfl⟩, rfl⟩
    rw [h.filed entry he]
    exact Table.find?_of_mem h.sorted.nodup he

theorem clashes_eq_false_iff (h : r.IsApart) {filename identifier : String} :
    r.clashes filename identifier = false ↔
      ∀ s ∈ r.submissions.values, s.filename ≠ filename ∧ s.identifier ≠ identifier := by
  rw [Registry.clashes_eq_false_iff, Table.values, List.forall_mem_map, forall₂_and]
  refine and_congr_left fun _ => ?_
  rw [Table.keys, List.mem_map, not_exists]
  exact forall_congr' fun entry => not_and.trans (forall_congr' fun he => by rw [h.filed entry he])

end IsApart

/-- Documents have the names that the options give them, and the schemas are those that were
read. -/
structure IsProper (options : Options) (r : Registry) : Prop extends IsApart r where
  identified : ∀ entry ∈ r.submissions, entry.2.identifier = options.identifierOf entry.1
  read : ∀ entry ∈ r.submissions, ∀ schema, entry.2.schema = some schema → schema.IsRead

namespace IsProper

variable {options : Options} {r : Registry}

theorem empty : IsProper options Registry.empty :=
  ⟨.empty, by simp [Registry.empty], by simp [Registry.empty]⟩

theorem register (h : IsProper options r) {filename text : String} {result : Registry}
    (hr : r.register filename (options.identifierOf filename) text = .ok result) :
    IsProper options result := by
  refine ⟨h.toIsApart.register hr, ?_, ?_⟩ <;> obtain ⟨-, rfl⟩ := register_eq_ok_iff.1 hr
  · exact Table.forall_mem_insert h.identified rfl
  · exact Table.forall_mem_insert h.read fun _ hs => nomatch hs

theorem attach (h : IsProper options r) (filename : String) {schema : Schema}
    (hs : schema.IsRead) : IsProper options (r.attach filename schema) := by
  have hapart := h.toIsApart.attach filename schema
  unfold Registry.attach at hapart ⊢
  split at hapart
  · next s hfind =>
      have hidentified := h.identified (filename, s) (Table.mem_of_find? hfind)
      exact ⟨hapart, Table.forall_mem_insert h.identified hidentified,
        Table.forall_mem_insert h.read fun _ ho => Option.some.inj ho ▸ hs⟩
  · exact h

theorem registerAll (files : List (String × String)) (h : IsProper options r) :
    IsProper options (Batch.registerAll options files r).1 := by
  induction files generalizing r with
  | nil => exact h
  | cons file rest ih =>
      unfold Batch.registerAll
      dsimp only
      split
      · next result hr => exact ih (h.register hr)
      · exact ih h

theorem readAll (submissions : List Submission) (h : IsProper options r) :
    IsProper options (Batch.readAll submissions r).1 := by
  induction submissions generalizing r with
  | nil => exact h
  | cons s rest ih =>
      unfold Batch.readAll
      rcases hs : Schema.ofText s.filename s.text with problem | ⟨schema, diagnostics⟩
      · exact ih h
      · exact ih (h.attach s.filename ⟨_, _, _, hs⟩)

theorem collect (options : Options) (files : List (String × String)) :
    IsProper options (Batch.collect options files).1 :=
  readAll _ (registerAll files empty)

end IsProper

end Registry

namespace Catalog

/-- No two files have one name, or become documents of one name, and every document has a name. -/
structure IsProper (c : Catalog) : Prop where
  ofFilename : ∀ f ∈ c.files, ∀ g ∈ c.files, f.filename = g.filename → f = g
  ofIdentifier : ∀ f ∈ c.files, ∀ g ∈ c.files, f.identifier = g.identifier → f = g
  named : ∀ f ∈ c.files, f.identifier ≠ ""
  read : ∀ f ∈ c.files, f.schema.IsRead

end Catalog

theorem Options.identifierOf_ne_empty (options : Options) (filename : String) :
    options.identifierOf filename ≠ "" := by
  intro h
  have := congrArg String.length h
  simp [Options.identifierOf] at this

/-- A file of the catalog is a submission with a schema. -/
theorem Registry.mem_close {r : Registry} {f : File} (h : f ∈ r.close.files) :
    ∃ entry ∈ r.submissions, entry.2.file? = some f := by
  obtain ⟨s, hs, hf⟩ := List.mem_filterMap.1 h
  obtain ⟨entry, he, rfl⟩ := List.mem_map.1 hs
  exact ⟨entry, he, hf⟩

theorem Registry.IsProper.close {options : Options} {r : Registry} (h : IsProper options r) :
    r.close.IsProper := by
  have hfile : ∀ f ∈ r.close.files, ∃ entry ∈ r.submissions, entry.2.file? = some f ∧
      f.filename = entry.1 ∧ f.identifier = entry.2.identifier ∧
        entry.2.schema = some f.schema := by
    intro f hf
    obtain ⟨entry, he, hfe⟩ := mem_close hf
    obtain ⟨schema, hs, rfl⟩ := Option.map_eq_some_iff.1 hfe
    exact ⟨entry, he, hfe, h.filed entry he, rfl, hs⟩
  have hsame : ∀ a ∈ r.submissions, ∀ b ∈ r.submissions, a.1 = b.1 → a.2 = b.2 := by
    intro a ha b hb hab
    have h1 := Table.find?_of_mem h.sorted.nodup ha
    have h2 := Table.find?_of_mem h.sorted.nodup hb
    rw [hab, h2] at h1
    exact (Option.some.inj h1).symm
  refine ⟨fun f hf g hg heq => ?_, fun f hf g hg heq => ?_, fun f hf => ?_, fun f hf => ?_⟩
  · obtain ⟨a, ha, hfa, hna, -, -⟩ := hfile f hf
    obtain ⟨b, hb, hgb, hnb, -, -⟩ := hfile g hg
    rw [hsame a ha b hb (hna ▸ hnb ▸ heq), hgb] at hfa
    exact (Option.some.inj hfa).symm
  · obtain ⟨a, ha, hfa, -, hia, -⟩ := hfile f hf
    obtain ⟨b, hb, hgb, -, hib, -⟩ := hfile g hg
    rw [hsame a ha b hb (h.distinct a ha b hb (hia ▸ hib ▸ heq)), hgb] at hfa
    exact (Option.some.inj hfa).symm
  · obtain ⟨a, ha, -, -, hia, -⟩ := hfile f hf
    rw [hia, h.identified a ha]
    exact options.identifierOf_ne_empty a.1
  · obtain ⟨a, ha, -, -, -, hs⟩ := hfile f hf
    exact h.read a ha f.schema hs

/-- The document of a file has the name that the options give it. -/
theorem Registry.IsProper.identifier {options : Options} {r : Registry} (h : IsProper options r)
    {f : File} (hf : f ∈ r.close.files) : f.identifier = options.identifierOf f.filename := by
  obtain ⟨entry, he, hfe⟩ := mem_close hf
  obtain ⟨schema, -, rfl⟩ := Option.map_eq_some_iff.1 hfe
  exact (h.identified entry he).trans (congrArg options.identifierOf (h.filed entry he).symm)

/-- The catalog of a batch. -/
theorem Catalog.isProper_collect (options : Options) (files : List (String × String)) :
    (Batch.collect options files).1.close.IsProper :=
  (Registry.IsProper.collect options files).close

end Crosswalk
