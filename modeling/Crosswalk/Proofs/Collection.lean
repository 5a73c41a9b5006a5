import Crosswalk.Proofs.Schema.Closure
import Crosswalk.Proofs.Submission

/-!
# The files that are registered and read

Files that are apart are read in order of name, each on its own: the catalog has those that can be
read, and the problems met are those of each file in turn, every one of them about that file. So
what is left of a batch when some of its files are left out is what the others become alone.

Whatever is submitted, a file is registered unless it clashes with one before it, and refused if it
does. It does not matter whether the other one was registered itself, since two files clash if and
only if they become documents of one name. What is registered is apart, and read as if it had been
submitted alone.
-/

namespace Crosswalk

/-! ### The files that are read -/

namespace Batch

variable {options : Options} {files : List (String × String)}

/-- The files of a batch that succeeds are apart. -/
theorem areApart_of_ok {batch : Batch} (h : ofFiles options files = .ok batch) :
    AreApart options files := by
  by_contra hapart
  obtain ⟨problems, he⟩ := exists_error_of_not_areApart hapart
  exact nomatch h.symm.trans he

/-- What a file is in a catalog, if it can be read. -/
def fileOf? (options : Options) (file : String × String) : Option File :=
  match Schema.ofText file.1 file.2 with
  | .ok (schema, _) => some ⟨file.1, options.identifierOf file.1, file.2, schema⟩
  | .error _ => none

theorem fileOf?_of_error {file : String × String} {problem : Problem}
    (h : Schema.ofText file.1 file.2 = .error problem) : fileOf? options file = none := by
  unfold fileOf?
  rw [h]

theorem fileOf?_of_ok {file : String × String} {schema : Schema} {notes : List Problem}
    (h : Schema.ofText file.1 file.2 = .ok (schema, notes)) :
    fileOf? options file = some ⟨file.1, options.identifierOf file.1, file.2, schema⟩ := by
  unfold fileOf?
  rw [h]

/-- The problems met when a file is read. -/
def readProblems (file : String × String) : List Problem :=
  match Schema.ofText file.1 file.2 with
  | .ok (_, notes) => notes
  | .error p => [p]

theorem readProblems_of_error {file : String × String} {problem : Problem}
    (h : Schema.ofText file.1 file.2 = .error problem) : readProblems file = [problem] := by
  unfold readProblems
  rw [h]

theorem readProblems_of_ok {file : String × String} {schema : Schema} {notes : List Problem}
    (h : Schema.ofText file.1 file.2 = .ok (schema, notes)) : readProblems file = notes := by
  unfold readProblems
  rw [h]

/-- The submission of a file that was read as far as possible, under its name. -/
def readEntry (options : Options) (file : String × String) : String × Submission :=
  (file.1, ⟨file.1, options.identifierOf file.1, file.2, (fileOf? options file).map File.schema⟩)

theorem file?_readEntry (file : String × String) :
    (readEntry options file).2.file? = fileOf? options file := by
  unfold readEntry fileOf?
  rcases Schema.ofText file.1 file.2 with _ | ⟨schema, notes⟩ <;> rfl

/-- The submission of a file that is attached its schema stays in its place. -/
theorem attach_of_sorted {s t : Table String Submission} {filename : String} {old : Submission}
    (h : Table.Sorted (s ++ (filename, old) :: t)) (schema : Schema) :
    (⟨s ++ (filename, old) :: t⟩ : Registry).attach filename schema =
      ⟨s ++ (filename, { old with schema := some schema }) :: t⟩ := by
  rw [Registry.attach, Table.find?_of_sorted h]
  exact congrArg Registry.mk (Table.insert_of_sorted h _)

/-- Reading goes through the entries of a registry in order and changes nothing but their
schemas. -/
theorem readAll_entries (rest : List (String × String)) :
    ∀ done, Table.Sorted (done ++ rest) →
      readAll ((rest.map (entryOf options)).map (·.2))
          ⟨done.map (readEntry options) ++ rest.map (entryOf options)⟩ =
        (⟨(done ++ rest).map (readEntry options)⟩, rest.flatMap readProblems) := by
  induction rest with
  | nil => intro done _; simp [readAll]
  | cons file rest ih =>
      intro done hsorted
      have hs : Table.Sorted (done.map (readEntry options) ++
          (file.1, (entryOf options file).2) :: rest.map (entryOf options)) := by
        rw [Table.sorted_iff] at hsorted ⊢
        simpa [Function.comp_def, readEntry, entryOf] using hsorted
      have hnext := ih (done ++ [file]) (by simpa using hsorted)
      rw [← List.append_cons, List.map_append, List.map_singleton, ← List.append_cons] at hnext
      rw [List.map_cons, List.map_cons, readAll]
      have hfile : (entryOf options file).2.filename = file.1 := rfl
      have htext : (entryOf options file).2.text = file.2 := rfl
      rw [hfile, htext, List.flatMap_cons]
      rcases hr : Schema.ofText file.1 file.2 with problem | ⟨schema, notes⟩
      · have hsame : readEntry options file = entryOf options file := by
          rw [readEntry, fileOf?_of_error hr]
          rfl
        rw [hsame] at hnext
        rw [readProblems_of_error hr]
        dsimp only
        rw [hnext]
      · have hsame : readEntry options file =
            (file.1, { (entryOf options file).2 with schema := some schema }) := by
          rw [readEntry, fileOf?_of_ok hr]
          rfl
        have hattach : (⟨done.map (readEntry options) ++ entryOf options file ::
            rest.map (entryOf options)⟩ : Registry).attach file.1 schema =
              ⟨done.map (readEntry options) ++ readEntry options file ::
                rest.map (entryOf options)⟩ := hsame ▸ attach_of_sorted hs schema
        rw [readProblems_of_ok hr]
        dsimp only
        rw [hattach, hnext]

/-- The files that are read, and the problems met, are those of each file in order of name. -/
theorem collect_eq (h : AreApart options files) :
    collect options files = (⟨(Table.ofList files).map (readEntry options)⟩,
      (Table.ofList files).flatMap readProblems) := by
  have hentries : Table.ofList (files.map (entryOf options)) =
      (Table.ofList files).map (entryOf options) :=
    Table.ofList_map h.filenames fun _ => rfl
  have hregistry : registryOf options files = ⟨(Table.ofList files).map (entryOf options)⟩ :=
    congrArg Registry.mk hentries
  have hall : registerAll options files .empty = (registryOf options files, []) :=
    registerAll_of_areApart files [] h
  unfold collect
  rw [hall, hregistry]
  exact congrArg (fun r => (r.1, [] ++ r.2))
    (readAll_entries (Table.ofList files) [] (Table.sorted_ofList files))

theorem catalogOf_eq (h : AreApart options files) :
    catalogOf options files = ⟨(Table.ofList files).filterMap (fileOf? options)⟩ := by
  rw [catalogOf, collect_eq h, Registry.close, Table.values, List.map_map, List.filterMap_map]
  refine congrArg Catalog.mk (List.filterMap_congr fun file _ => ?_)
  rw [Function.comp_apply, Function.comp_apply, file?_readEntry]

/-- A file in a catalog has the name under which it was submitted. -/
theorem filename_of_fileOf? {file : String × String} {f : File}
    (h : fileOf? options file = some f) : f.filename = file.1 := by
  unfold fileOf? at h
  split at h
  · exact Option.some.inj h ▸ rfl
  · exact nomatch h

theorem ofText_of_fileOf? {file : String × String} {f : File}
    (h : fileOf? options file = some f) :
    ∃ notes, Schema.ofText file.1 file.2 = .ok (f.schema, notes) := by
  unfold fileOf? at h
  split at h
  · next hread =>
      obtain rfl := Option.some.inj h
      exact ⟨_, hread⟩
  · exact nomatch h

/-- What is noted when a file is read is about the file. -/
theorem filename_of_mem_readProblems {file : String × String} {p : Problem}
    (h : p ∈ readProblems file) : p.filename = file.1 := by
  unfold readProblems at h
  split at h
  · next schema notes hread => exact (Schema.about_of_ofText hread p h).1
  · next problem hread =>
      obtain ⟨reason, rfl⟩ := Schema.malformed_of_ofText hread
      exact List.mem_singleton.1 h ▸ rfl

/-- What is collected of each thing in turn may be left out before or afterwards. -/
theorem flatMap_leftOut {α β : Type} {f : α → List β} {keep : α → Bool} {keep' : β → Bool}
    (as : List α) (h : ∀ a ∈ as, ∀ b ∈ f a, keep' b = keep a) :
    (as.flatMap f).filter keep' = (as.filter keep).flatMap f := by
  induction as with
  | nil => rfl
  | cons a rest ih =>
      rw [List.forall_mem_cons] at h
      rw [List.flatMap_cons, List.filter_append, ih h.2, List.filter_cons]
      split
      · next hk => rw [List.filter_eq_self.2 fun b hb => (h.1 b hb).trans hk, List.flatMap_cons]
      · next hk =>
          rw [List.filter_eq_nil_iff.2 fun b hb => (h.1 b hb).symm ▸ hk, List.nil_append]

/-- Nothing fatal is met in a file if and only if it can be read. -/
theorem readProblems_fine_iff {file : String × String} :
    (∀ p ∈ readProblems file, p.isFatal = false) ↔ (fileOf? options file).isSome = true := by
  unfold readProblems fileOf?
  rcases hread : Schema.ofText file.1 file.2 with problem | ⟨schema, notes⟩
  · obtain ⟨reason, rfl⟩ := Schema.malformed_of_ofText hread
    exact ⟨fun h => (nomatch h _ List.mem_cons_self), fun h => nomatch h⟩
  · exact ⟨fun _ => rfl, fun _ p hp => (Schema.about_of_ofText hread p hp).2⟩

end Batch

/-! ### The files that are registered -/

namespace Batch

variable {options : Options} {files : List (String × String)} {file : String × String}

/-- Two files have one name, or become documents of one name. -/
def clash (options : Options) (a b : String × String) : Bool :=
  a.1 == b.1 || options.identifierOf a.1 == options.identifierOf b.1

theorem clash_iff {a b : String × String} :
    clash options a b = true ↔ options.identifierOf a.1 = options.identifierOf b.1 := by
  rw [clash, Bool.or_eq_true, beq_iff_eq, beq_iff_eq]
  exact or_iff_right_of_imp (congrArg options.identifierOf)

/-- The files that clash with one before them. -/
def refused (options : Options) (files : List (String × String)) : List (String × String) :=
  (files.zipIdx.filter fun entry => (files.take entry.2).any (clash options entry.1)).map (·.1)

/-- The files that clash with none before them. -/
def registered (options : Options) (files : List (String × String)) : List (String × String) :=
  (files.zipIdx.filter fun entry => !(files.take entry.2).any (clash options entry.1)).map (·.1)

/-- Which files are chosen in view of those before them does not depend on the last one. -/
theorem chosen_concat (choose : List (String × String) → String × String → Bool) :
    (((files ++ [file]).zipIdx.filter fun entry =>
        choose ((files ++ [file]).take entry.2) entry.1).map (·.1)) =
      ((files.zipIdx.filter fun entry => choose (files.take entry.2) entry.1).map (·.1)) ++
        if choose files file then [file] else [] := by
  have hbefore : (files.zipIdx.filter fun entry =>
      choose ((files ++ [file]).take entry.2) entry.1) =
        files.zipIdx.filter fun entry => choose (files.take entry.2) entry.1 := by
    refine List.filter_congr fun entry he => ?_
    have hlt : entry.2 < files.length := (List.mem_zipIdx' he).1
    rw [List.take_append_of_le_length hlt.le]
  rw [List.zipIdx_append, List.filter_append, List.map_append, hbefore]
  refine congrArg _ ?_
  rw [List.zipIdx_singleton, List.filter_cons, Nat.zero_add, List.take_left, List.filter_nil]
  split <;> rfl

theorem refused_concat : refused options (files ++ [file]) =
    refused options files ++ if files.any (clash options file) then [file] else [] :=
  chosen_concat fun before file => before.any (clash options file)

theorem registered_concat : registered options (files ++ [file]) =
    registered options files ++ if files.any (clash options file) then [] else [file] := by
  refine (chosen_concat fun before file => !before.any (clash options file)).trans ?_
  cases files.any (clash options file) <;> rfl

/-- A file clashes with one before it if and only if it clashes with one that is registered. -/
theorem any_clash_registered (file : String × String) :
    (registered options files).any (clash options file) = files.any (clash options file) := by
  induction files using List.reverseRecOn with
  | nil => rfl
  | append_singleton files last ih =>
      rw [registered_concat, List.any_append, ih, List.any_append, List.any_cons, List.any_nil,
        Bool.or_false]
      cases hlast : files.any (clash options last) with
      | false => rw [if_neg Bool.false_ne_true, List.any_cons, List.any_nil, Bool.or_false]
      | true =>
          -- the last file is refused: whatever clashes with it clashes with the one before it
          rw [if_pos rfl, List.any_nil, Bool.or_false]
          cases hclash : clash options file last with
          | false => rw [Bool.or_false]
          | true =>
              obtain ⟨other, hother, hsame⟩ := List.any_eq_true.1 hlast
              rw [Bool.or_true]
              exact List.any_eq_true.2
                ⟨other, hother, clash_iff.2 ((clash_iff.1 hclash).trans (clash_iff.1 hsame))⟩

theorem areApart_concat_iff_clash (h : AreApart options files) :
    AreApart options (files ++ [file]) ↔ files.any (clash options file) = false := by
  rw [areApart_concat_iff, and_iff_right h, List.any_eq_false]
  constructor
  · rintro ⟨-, hne⟩ other hother hclash
    exact hne other hother (clash_iff.1 hclash).symm
  · intro hne
    have hdistinct : ∀ other ∈ files, options.identifierOf other.1 ≠ options.identifierOf file.1 :=
      fun other hother heq => hne other hother (clash_iff.2 heq.symm)
    exact ⟨fun other hother heq => hdistinct other hother (congrArg options.identifierOf heq),
      hdistinct⟩

/-- The files that are registered are apart. -/
theorem areApart_registered : AreApart options (registered options files) := by
  induction files using List.reverseRecOn with
  | nil => exact areApart_nil
  | append_singleton files file ih =>
      rw [registered_concat]
      split
      · rwa [List.append_nil]
      · next hclash =>
          refine (areApart_concat_iff_clash ih).2 ?_
          rw [any_clash_registered]
          exact Bool.eq_false_iff.2 hclash

/-- Registration goes on with what it has come to. -/
theorem registerAll_append (rest : List (String × String)) : ∀ registry,
    registerAll options (files ++ rest) registry =
      ((registerAll options rest (registerAll options files registry).1).1,
        (registerAll options files registry).2 ++
          (registerAll options rest (registerAll options files registry).1).2) := by
  induction files with
  | nil => exact fun _ => rfl
  | cons file files ih =>
      intro registry
      rw [List.cons_append, registerAll, registerAll]
      cases registry.register file.1 (options.identifierOf file.1) file.2 with
      | ok next => exact ih next
      | error problem =>
          dsimp only
          rw [ih registry]
          rfl

/-- The registry has the files that clash with none before them, and the others are reported. -/
theorem registerAll_eq : registerAll options files .empty =
    (registryOf options (registered options files),
      (refused options files).map fun file => .duplicateFile file.1) := by
  induction files using List.reverseRecOn with
  | nil => rfl
  | append_singleton files file ih =>
      have hconcat : AreApart options (registered options files ++ [file]) ↔
          (registered options files).any (clash options file) = false :=
        areApart_concat_iff_clash areApart_registered
      rw [any_clash_registered] at hconcat
      rw [registerAll_append, ih, registered_concat, refused_concat, List.map_append, registerAll]
      cases hclash : files.any (clash options file) with
      | false =>
          rw [register_of_areApart (hconcat.2 hclash)]
          rfl
      | true =>
          have hnot : ¬ AreApart options (registered options files ++ [file]) := fun h =>
            Bool.false_ne_true ((hconcat.1 h).symm.trans hclash)
          rw [register_of_not_areApart areApart_registered hnot, if_pos rfl, List.append_nil]
          rfl

/-- What is registered is read as if the other files had not been submitted. -/
theorem collect_eq_registered : collect options files =
    ((collect options (registered options files)).1,
      ((refused options files).map fun file => .duplicateFile file.1) ++
        (Table.ofList (registered options files)).flatMap readProblems) := by
  have hread := collect_eq (@areApart_registered options files)
  have hall : registerAll options (registered options files) .empty =
      (registryOf options (registered options files), []) :=
    registerAll_of_areApart _ [] areApart_registered
  unfold collect at hread ⊢
  rw [hall] at hread
  rw [hall, registerAll_eq]
  dsimp only at hread ⊢
  rw [List.nil_append] at hread
  rw [(Prod.mk.inj hread).2]

end Batch

end Crosswalk
