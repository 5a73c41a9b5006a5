import Crosswalk.Proofs.Batch

/-!
# The order of submission

Files that are apart — no two have one name, no two become documents of one name — are all
registered, and the registry lists them in order of name, whatever order they came in. Of files that
are not apart, one is refused in every order, and then the batch fails. So permuted files succeed or
fail alike, with the same batch; and where they are apart, with the same problems as well.
-/

namespace Crosswalk

namespace Batch

variable {options : Options} {files files' : List (String × String)}

/-- No two files have one name, and no two become documents of one name. -/
structure AreApart (options : Options) (files : List (String × String)) : Prop where
  filenames : (files.map (·.1)).Nodup
  identifiers : (files.map fun file => options.identifierOf file.1).Nodup

theorem AreApart.perm (h : AreApart options files) (hp : files.Perm files') :
    AreApart options files' :=
  ⟨(hp.map _).nodup_iff.1 h.filenames, (hp.map _).nodup_iff.1 h.identifiers⟩

/-- The submission of a file, under its name. -/
def entryOf (options : Options) (file : String × String) : String × Submission :=
  (file.1, ⟨file.1, options.identifierOf file.1, file.2, none⟩)

/-- The registry of files that are apart. -/
def registryOf (options : Options) (files : List (String × String)) : Registry :=
  ⟨Table.ofList (files.map (entryOf options))⟩

theorem keys_entryOf (options : Options) (files : List (String × String)) :
    (files.map (entryOf options)).map (·.1) = files.map (·.1) := List.map_map

theorem registryOf_perm (h : AreApart options files) (hp : files.Perm files') :
    registryOf options files = registryOf options files' := by
  unfold registryOf
  rw [Table.ofList_perm (hp.map _) (keys_entryOf options files ▸ h.filenames)]

theorem AreApart.left {rest : List (String × String)} (h : AreApart options (files ++ rest)) :
    AreApart options files :=
  ⟨(List.nodup_append.1 (List.map_append ▸ h.filenames)).1,
    (List.nodup_append.1 (List.map_append ▸ h.identifiers)).1⟩

theorem areApart_nil : AreApart options [] := ⟨.nil, .nil⟩

theorem areApart_concat_iff {file : String × String} :
    AreApart options (files ++ [file]) ↔ AreApart options files ∧
      (∀ other ∈ files, other.1 ≠ file.1) ∧
      ∀ other ∈ files, options.identifierOf other.1 ≠ options.identifierOf file.1 := by
  have hconcat : ∀ key : String × String → String, ((files ++ [file]).map key).Nodup ↔
      (files.map key).Nodup ∧ ∀ other ∈ files, key other ≠ key file := fun key => by
    rw [List.map_append, List.map_singleton, List.nodup_append]
    simp only [List.nodup_singleton, List.mem_singleton, forall_eq, List.forall_mem_map,
      true_and]
  constructor
  · intro h
    obtain ⟨hn, hne⟩ := (hconcat _).1 h.filenames
    obtain ⟨hi, hie⟩ := (hconcat _).1 h.identifiers
    exact ⟨⟨hn, hi⟩, hne, hie⟩
  · rintro ⟨h, hne, hie⟩
    exact ⟨(hconcat _).2 ⟨h.filenames, hne⟩, (hconcat _).2 ⟨h.identifiers, hie⟩⟩

/-- A file clashes with files that are apart if and only if it is not apart from them. -/
theorem clashes_eq_false_iff (h : AreApart options files) (file : String × String) :
    (registryOf options files).clashes file.1 (options.identifierOf file.1) = false ↔
      AreApart options (files ++ [file]) := by
  have hkeys : ∀ name, (registryOf options files).submissions.contains name = true ↔
      name ∈ files.map (·.1) := fun name => by
    rw [registryOf, Table.contains_ofList, keys_entryOf]
  have hvalues : ∀ s, s ∈ (registryOf options files).submissions.values ↔
      ∃ other ∈ files, (entryOf options other).2 = s := fun s => by
    rw [registryOf, Table.values,
      ((Table.ofList_perm_self (keys_entryOf options files ▸ h.filenames)).map _).mem_iff,
      List.map_map, List.mem_map]
    rfl
  rw [areApart_concat_iff, and_iff_right h, Registry.clashes, Bool.or_eq_false_iff,
    ← Bool.not_eq_true, hkeys, List.any_eq_false]
  refine and_congr ?_ ?_
  · simp only [List.mem_map, not_exists, not_and, ne_eq]
  · simp only [hvalues, beq_iff_eq, forall_exists_index, and_imp, forall_apply_eq_imp_iff₂]
    rfl

theorem register_of_areApart {file : String × String}
    (h : AreApart options (files ++ [file])) :
    (registryOf options files).register file.1 (options.identifierOf file.1) file.2 =
      .ok (registryOf options (files ++ [file])) := by
  have hclash := (clashes_eq_false_iff (areApart_concat_iff.1 h).1 file).2 h
  rw [Registry.register, if_neg (by simp [hclash]), registryOf, registryOf, List.map_append,
    List.map_singleton, Table.ofList_append_singleton]
  rfl

theorem register_of_not_areApart {file : String × String} (h : AreApart options files)
    (hn : ¬ AreApart options (files ++ [file])) :
    (registryOf options files).register file.1 (options.identifierOf file.1) file.2 =
      .error (.duplicateFile file.1) := by
  have hclash := mt (clashes_eq_false_iff h file).1 hn
  rw [Bool.not_eq_false] at hclash
  rw [Registry.register, if_pos hclash]

/-- Files that are apart are all registered. -/
theorem registerAll_of_areApart (rest : List (String × String)) :
    ∀ files, AreApart options (files ++ rest) →
      registerAll options rest (registryOf options files) =
        (registryOf options (files ++ rest), []) := by
  induction rest with
  | nil => simp [registerAll]
  | cons file rest ih =>
      intro files h
      rw [List.append_cons] at h ⊢
      rw [registerAll, register_of_areApart h.left]
      exact ih _ h

/-- Of files that are not apart, one is refused. -/
theorem exists_refused (rest : List (String × String)) :
    ∀ files, AreApart options files → ¬ AreApart options (files ++ rest) →
      ∃ filename, .duplicateFile filename ∈
        (registerAll options rest (registryOf options files)).2 := by
  induction rest with
  | nil => exact fun _ h hn => absurd ((List.append_nil _).symm ▸ h) hn
  | cons file rest ih =>
      intro files h hn
      by_cases hfile : AreApart options (files ++ [file])
      · rw [registerAll, register_of_areApart hfile]
        exact ih _ hfile (List.append_cons _ _ _ ▸ hn)
      · rw [registerAll, register_of_not_areApart h hfile]
        exact ⟨file.1, List.mem_cons_self⟩

/-! ### Runs -/

/-- Files that are apart are collected alike in every order. -/
theorem collect_perm (h : AreApart options files) (hp : files.Perm files') :
    collect options files = collect options files' := by
  have hall : ∀ {files}, AreApart options files → registerAll options files .empty =
      (registryOf options files, []) := fun h => registerAll_of_areApart _ [] h
  unfold collect
  rw [hall h, hall (h.perm hp), registryOf_perm h hp]

theorem exists_error_of_not_areApart (h : ¬ AreApart options files) :
    ∃ problems, ofFiles options files = .error problems := by
  obtain ⟨filename, hrefused⟩ := exists_refused files [] areApart_nil h
  have hfatal : (collect options files).2.any Problem.isFatal = true :=
    List.any_eq_true.2 ⟨_, List.mem_append_left _ hrefused, rfl⟩
  refine ⟨Problem.sortByFile (collect options files).2, ?_⟩
  unfold ofFiles
  dsimp only
  rw [checkpoint, if_pos hfatal]
  rfl

/-- Permuted files fail both, or succeed both with the same documents and diagnostics; and if they
are apart, they fail with the same problems. -/
theorem ofFiles_perm (h : files.Perm files') :
    ((∃ problems problems', ofFiles options files = .error problems ∧
        ofFiles options files' = .error problems') ∨
      ∃ batch, ofFiles options files = .ok batch ∧ ofFiles options files' = .ok batch) ∧
    (AreApart options files → ofFiles options files = ofFiles options files') := by
  have hsame : AreApart options files → ofFiles options files = ofFiles options files' :=
    fun hapart => by
      unfold ofFiles
      rw [collect_perm hapart h]
  refine ⟨?_, hsame⟩
  by_cases hapart : AreApart options files
  · rw [← hsame hapart]
    cases ofFiles options files with
    | error problems => exact .inl ⟨problems, problems, rfl, rfl⟩
    | ok batch => exact .inr ⟨batch, rfl, rfl⟩
  · obtain ⟨problems, he⟩ := exists_error_of_not_areApart hapart
    obtain ⟨problems', he'⟩ := exists_error_of_not_areApart fun hapart' =>
      hapart (hapart'.perm h.symm)
    exact .inl ⟨problems, problems', he, he'⟩

/-- A file that declares an element. -/
def declaringFile : String × String :=
  ("b", "<s:schema xmlns:s='http://www.w3.org/2001/XMLSchema'><s:element name='e'/></s:schema>")

/-- A file that refers to the element. -/
def referringFile : String × String :=
  ("a", "<s:schema xmlns:s='http://www.w3.org/2001/XMLSchema'><s:group name='g'><s:all>" ++
    "<s:element ref='e'/></s:all></s:group></s:schema>")

/-- The parts of these files. -/
def referringParts (filename : String) : List Xml.Event :=
  if filename = "a" then
    Xml.schemaParts (Xml.elementParts "group" [("name", "g")]
      (Xml.elementParts "all" [] (Xml.elementParts "element" [("ref", "e")] [])))
  else Xml.schemaParts (Xml.elementParts "element" [("name", "e")] [])

theorem events?_referring : ∀ file ∈ [referringFile, declaringFile],
    Xml.events? (Text.trimStart file.2) = some (referringParts file.1) := by
  refine List.forall_mem_cons.2 ⟨?_, List.forall_mem_singleton.2 ?_⟩
  · exact (Xml.events?_trimStart
      (Xml.toList_append_of String.toList_ofList String.toList_ofList)).trans (by cbv)
  · exact (Xml.events?_trimStart String.toList_ofList).trans (by cbv)

theorem isOk_referringFile : (ofFiles {} [referringFile, declaringFile]).isOk = true := by
  refine isOk_of_problemsOf ?_
  rw [problemsOf, linkageOf, catalogOf, collect_of_events events?_referring]
  decide +kernel

theorem ofFiles_perm_referring :
    [referringFile, declaringFile].Perm [declaringFile, referringFile] ∧
    AreApart {} [referringFile, declaringFile] ∧
    ∃ batch, ofFiles {} [referringFile, declaringFile] = .ok batch ∧
      ofFiles {} [declaringFile, referringFile] = .ok batch := by
  have hp : [referringFile, declaringFile].Perm [declaringFile, referringFile] := .swap _ _ _
  have hapart : AreApart {} [referringFile, declaringFile] := ⟨by decide, by decide⟩
  obtain ⟨batch, h⟩ := ok_of_isOk isOk_referringFile
  exact ⟨hp, hapart, batch, h, (ofFiles_perm hp).2 hapart ▸ h⟩

end Batch

end Crosswalk
