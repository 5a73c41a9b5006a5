import Crosswalk.Proofs.Catalog
import Mathlib.Data.List.Induction

/-!
# Registries and their histories

A registry is filled by operations in any order: files are registered, and some of them refused;
schemas are attached, some to files that are not there and some to one file again and again. The
history of the registry says which files it took on and which schema each of them got last. Closing
the registry gives a catalog of just these files, and the index of the catalog, which is made once
and read apart from the files, answers for each namespace with the files that declare it.
-/

namespace Crosswalk

namespace Registry

/-- What is done with a registry before it is closed. -/
inductive Operation where
  /-- To register a file, which may be refused. -/
  | register (filename identifier text : String)
  /-- To give a file its schema, if there is a file of that name. -/
  | attach (filename : String) (schema : Schema)

/-- The schema that an operation gives to a file. -/
def Operation.schemaFor? (filename : String) : Operation → Option Schema
  | .register _ _ _ => none
  | .attach name schema => if name = filename then some schema else none

/-- The registry after an operation. A file that is refused leaves it as it was. -/
def perform (r : Registry) : Operation → Registry
  | .register filename identifier text =>
    match r.register filename identifier text with
    | .ok result => result
    | .error _ => r
  | .attach filename schema => r.attach filename schema

/-- The registry after some operations. -/
def run (operations : List Operation) : Registry := operations.foldl perform empty

/-! ### Histories -/

/-- The files that were taken on, with the names of their documents, after one more operation: a
file of which neither name was taken before is. -/
def take (taken : List (String × String)) : Operation → List (String × String)
  | .register filename identifier _ =>
    if taken.any fun e => e.1 == filename || e.2 == identifier then taken
    else taken ++ [(filename, identifier)]
  | .attach _ _ => taken

/-- The files that were taken on, with the names of their documents. -/
def taken (operations : List Operation) : List (String × String) := operations.foldl take []

/-- Neither the name of a file nor that of its document was taken. -/
def IsFree (operations : List Operation) (filename identifier : String) : Prop :=
  ∀ e ∈ taken operations, e.1 ≠ filename ∧ e.2 ≠ identifier

/-- The schema that operations give to a file last. -/
def lastSchema? (operations : List Operation) (filename : String) : Option Schema :=
  (operations.filterMap (Operation.schemaFor? filename)).getLast?

/-- A submission was registered when its names were free, and has the schema that was attached last
after that. -/
def Submits (operations : List Operation) (s : Submission) : Prop :=
  ∃ before after, operations = before ++ .register s.filename s.identifier s.text :: after ∧
    IsFree before s.filename s.identifier ∧ s.schema = lastSchema? after s.filename

end Registry

/-- A submission after one more operation. -/
def Submission.after (s : Submission) (operation : Registry.Operation) : Submission :=
  { s with schema := (operation.schemaFor? s.filename).or s.schema }

namespace Registry

theorem run_concat (operations : List Operation) (operation : Operation) :
    run (operations ++ [operation]) = (run operations).perform operation := by
  rw [run, List.foldl_append]
  rfl

theorem taken_concat (operations : List Operation) (operation : Operation) :
    taken (operations ++ [operation]) = take (taken operations) operation := by
  rw [taken, List.foldl_append]
  rfl

theorem lastSchema?_concat (operations : List Operation) (operation : Operation)
    (filename : String) : lastSchema? (operations ++ [operation]) filename =
      (operation.schemaFor? filename).or (lastSchema? operations filename) := by
  rw [lastSchema?, List.filterMap_append, List.getLast?_append]
  cases h : operation.schemaFor? filename with
  | none => rw [List.filterMap_cons_none h]; rfl
  | some schema => rw [List.filterMap_cons_some h]; rfl

/-- A submission is registered by the last operation, or was submitted before. -/
theorem submits_concat_iff {operations : List Operation} {operation : Operation}
    {s : Submission} : Submits (operations ++ [operation]) s ↔
      (operation = .register s.filename s.identifier s.text ∧
        IsFree operations s.filename s.identifier ∧ s.schema = none) ∨
      ∃ old, Submits operations old ∧ s = old.after operation := by
  constructor
  · rintro ⟨before, after, heq, hfree, hs⟩
    rcases List.eq_nil_or_concat after with rfl | ⟨after, last, rfl⟩
    · obtain ⟨rfl, hlast⟩ := List.append_inj' heq rfl
      exact .inl ⟨List.singleton_inj.1 hlast, hfree, hs⟩
    · rw [List.concat_eq_append, ← List.cons_append, ← List.append_assoc] at heq
      obtain ⟨rfl, hlast⟩ := List.append_inj' heq rfl
      obtain rfl := List.singleton_inj.1 hlast
      rw [List.concat_eq_append, lastSchema?_concat] at hs
      exact .inr ⟨{ s with schema := lastSchema? after s.filename },
        ⟨before, after, rfl, hfree, rfl⟩, by rw [Submission.after, ← hs]⟩
  · rintro (⟨rfl, hfree, hs⟩ | ⟨old, ⟨before, after, rfl, hfree, hs⟩, rfl⟩)
    · exact ⟨operations, [], rfl, hfree, hs⟩
    · refine ⟨before, after ++ [operation], by simp [Submission.after], hfree, ?_⟩
      exact (congrArg (Option.or _) hs).trans (lastSchema?_concat _ _ _).symm

/-! ### Operations -/

theorem IsApart.perform {r : Registry} (h : r.IsApart) (operation : Operation) :
    (r.perform operation).IsApart := by
  cases operation with
  | register filename identifier text =>
      unfold Registry.perform
      dsimp only
      split
      · next hr => exact h.register hr
      · exact h
  | «attach» filename schema => exact h.attach filename schema

theorem isApart_run (operations : List Operation) : (run operations).IsApart :=
  List.foldlRecOn operations Registry.perform IsApart.empty fun _ h operation _ =>
    h.perform operation

/-- Registering adds a file, unless it clashes with others. -/
theorem mem_perform_register_iff {r : Registry} {filename identifier text : String}
    {s : Submission} :
    s ∈ (r.perform (.register filename identifier text)).submissions.values ↔
      (r.clashes filename identifier = false ∧ s = ⟨filename, identifier, text, none⟩) ∨
        s ∈ r.submissions.values := by
  cases hc : r.clashes filename identifier with
  | true =>
      have hr : r.perform (.register filename identifier text) = r := by
        simp [perform, Registry.register, hc]
      rw [hr, or_iff_right (by simp)]
  | false =>
      have hr : r.perform (.register filename identifier text) =
          ⟨r.submissions.insert filename ⟨filename, identifier, text, none⟩⟩ := by
        simp [perform, Registry.register, hc]
      have hperm := (Table.insert_perm ⟨filename, identifier, text, none⟩
        (clashes_eq_false_iff.1 hc).1).map Prod.snd
      rw [hr, and_iff_right rfl]
      exact hperm.mem_iff.trans List.mem_cons

theorem after_attach (s : Submission) (filename : String) (schema : Schema) :
    s.after (.attach filename schema) =
      if filename = s.filename then { s with schema := some schema } else s := by
  rw [Submission.after, Operation.schemaFor?]
  split <;> rfl

/-- Attaching a schema changes the submission of its file, and no other. -/
theorem find?_attach {r : Registry} (h : r.IsApart) (filename : String) (schema : Schema)
    (name : String) : (r.attach filename schema).submissions.find? name =
      (r.submissions.find? name).map fun s => s.after (.attach filename schema) := by
  have hsame : ∀ s, r.submissions.find? name = some s → name ≠ filename →
      s.after (.attach filename schema) = s := fun s hs hne => by
    rw [after_attach, (h.find?_iff.1 hs).2, if_neg (Ne.symm hne)]
  unfold Registry.attach
  by_cases hname : name = filename
  · subst hname
    cases hf : r.submissions.find? name with
    | none => exact hf
    | some s =>
        rw [Option.map_some, after_attach, if_pos (h.find?_iff.1 hf).2.symm]
        exact Table.find?_insert_self _ _ _
  · have hother : (r.submissions.find? name).map (fun s => s.after (.attach filename schema)) =
        r.submissions.find? name := by
      cases hf : r.submissions.find? name with
      | none => rfl
      | some s => exact congrArg some (hsame s hf hname)
    rw [hother]
    split
    · exact Table.find?_insert_of_ne _ _ hname
    · rfl

theorem mem_perform_attach_iff {r : Registry} (h : r.IsApart) {filename : String}
    {schema : Schema} {s : Submission} :
    s ∈ (r.perform (.attach filename schema)).submissions.values ↔
      ∃ old ∈ r.submissions.values, s = old.after (.attach filename schema) := by
  have hfind := find?_attach h filename schema
  constructor
  · intro hs
    have hs := (h.attach filename schema).find?_iff.2 ⟨hs, rfl⟩
    rw [hfind, Option.map_eq_some_iff] at hs
    obtain ⟨old, ho, heq⟩ := hs
    exact ⟨old, (h.find?_iff.1 ho).1, heq.symm⟩
  · rintro ⟨old, ho, rfl⟩
    have hnew : (r.attach filename schema).submissions.find? old.filename =
        some (old.after (.attach filename schema)) := by
      rw [hfind, h.find?_iff.2 ⟨ho, rfl⟩]
      rfl
    exact ((h.attach filename schema).find?_iff.1 hnew).1

/-! ### Runs -/

/-- The names that were taken are those of the submissions. -/
theorem mem_taken_iff (operations : List Operation) {e : String × String} :
    e ∈ taken operations ↔
      ∃ s ∈ (run operations).submissions.values, (s.filename, s.identifier) = e := by
  induction operations using List.reverseRecOn generalizing e with
  | nil => simp [taken, run, empty, Table.values]
  | append_singleton operations operation ih =>
      rw [run_concat, taken_concat]
      cases operation with
      | register filename identifier text =>
          have hclash : ((taken operations).any fun e => e.1 == filename || e.2 == identifier) =
              (run operations).clashes filename identifier := by
            rw [← Bool.not_inj_iff, Bool.eq_iff_iff, Bool.not_eq_true', Bool.not_eq_true',
              (isApart_run operations).clashes_eq_false_iff, List.any_eq_false]
            simp [ih]
          simp only [mem_perform_register_iff, or_and_right, exists_or, ← ih, take, hclash]
          cases (run operations).clashes filename identifier with
          | true => simp
          | false => simp [or_comm, eq_comm]
      | «attach» filename schema =>
          have hnames : ∀ s : Submission, ((s.after (.attach filename schema)).filename,
              (s.after (.attach filename schema)).identifier) = (s.filename, s.identifier) :=
            fun _ => rfl
          simp only [mem_perform_attach_iff (isApart_run operations), take, ih]
          constructor
          · rintro ⟨s, hs, he⟩
            exact ⟨_, ⟨s, hs, rfl⟩, (hnames s).trans he⟩
          · rintro ⟨_, ⟨s, hs, rfl⟩, he⟩
            exact ⟨s, hs, (hnames s).symm.trans he⟩

/-- A file is refused if and only if its name or that of its document was taken. -/
theorem clashes_run_eq_false_iff (operations : List Operation) {filename identifier : String} :
    (run operations).clashes filename identifier = false ↔
      IsFree operations filename identifier := by
  rw [(isApart_run operations).clashes_eq_false_iff, IsFree]
  simp [mem_taken_iff]

/-- The submissions are those of the history. -/
theorem mem_run_iff (operations : List Operation) {s : Submission} :
    s ∈ (run operations).submissions.values ↔ Submits operations s := by
  -- The last operation comes first: it acts on what all the others have made of the registry.
  induction operations using List.reverseRecOn generalizing s with
  | nil => simp [run, empty, Table.values, Submits]
  | append_singleton operations operation ih =>
      rw [run_concat, submits_concat_iff]
      cases operation with
      | register filename identifier text =>
          rw [mem_perform_register_iff, clashes_run_eq_false_iff]
          refine or_congr ⟨?_, ?_⟩ ?_
          · rintro ⟨hfree, rfl⟩
            exact ⟨rfl, hfree, rfl⟩
          · rintro ⟨heq, hfree, hs⟩
            obtain ⟨rfl, rfl, rfl⟩ := Operation.register.inj heq
            exact ⟨hfree, hs ▸ rfl⟩
          · simp only [← ih]
            refine ⟨fun hs => ⟨s, hs, rfl⟩, ?_⟩
            rintro ⟨_, hs, rfl⟩
            exact hs
      | «attach» filename schema =>
          rw [mem_perform_attach_iff (isApart_run operations), or_iff_right (by simp)]
          simp only [ih]

/-! ### Closed registries -/

theorem mem_close_iff {r : Registry} {f : File} : f ∈ r.close.files ↔
    ⟨f.filename, f.identifier, f.text, some f.schema⟩ ∈ r.submissions.values := by
  rw [close, List.mem_filterMap]
  constructor
  · rintro ⟨s, hs, hf⟩
    obtain ⟨schema, hschema, rfl⟩ := Option.map_eq_some_iff.1 hf
    exact hschema ▸ hs
  · exact fun hs => ⟨_, hs, rfl⟩

namespace IsApart

variable {r : Registry} (h : r.IsApart)
include h

/-- The files of a closed registry are in order of name. -/
theorem pairwise_filename : (r.close.files.map File.filename).Pairwise (· < ·) := by
  rw [List.pairwise_map, close, List.pairwise_filterMap, Table.values, List.pairwise_map]
  refine h.sorted.imp_of_mem fun {a b} ha hb hab f hf g hg => ?_
  obtain ⟨_, -, rfl⟩ := Option.map_eq_some_iff.1 hf
  obtain ⟨_, -, rfl⟩ := Option.map_eq_some_iff.1 hg
  rwa [h.filed a ha, h.filed b hb]

/-- They become documents of different names. -/
theorem nodup_identifier : (r.close.files.map File.identifier).Nodup := by
  rw [List.Nodup, List.pairwise_map, close, List.pairwise_filterMap, Table.values,
    List.pairwise_map]
  refine h.sorted.imp_of_mem fun {a b} ha hb hab f hf g hg heq => ?_
  obtain ⟨_, -, rfl⟩ := Option.map_eq_some_iff.1 hf
  obtain ⟨_, -, rfl⟩ := Option.map_eq_some_iff.1 hg
  exact absurd (h.distinct a ha b hb heq) (String.ne_of_lt hab)

end IsApart

end Registry

namespace Catalog

variable {c : Catalog} (h : (c.files.map File.filename).Pairwise (· < ·))
include h

/-- A file is found by its name. -/
theorem file?_eq_some_iff {filename : String} {f : File} :
    c.file? filename = some f ↔ f ∈ c.files ∧ f.filename = filename := by
  have hinj : ∀ f ∈ c.files, ∀ g ∈ c.files, f.filename = g.filename → f = g :=
    List.inj_on_of_nodup_map (h.imp String.ne_of_lt)
  have hfound : ∀ g, c.file? filename = some g → g ∈ c.files ∧ g.filename = filename :=
    fun g hg => ⟨List.mem_of_find?_eq_some hg, by simpa using List.find?_some hg⟩
  refine ⟨hfound f, ?_⟩
  rintro ⟨hf, rfl⟩
  obtain ⟨g, hg⟩ : ∃ g, c.file? f.filename = some g :=
    Option.isSome_iff_exists.1 (List.find?_isSome.2 ⟨f, hf, by simp⟩)
  rw [hg, hinj g (hfound g hg).1 f hf (hfound g hg).2]

/-- The names in the index are those of the files that declare the namespace. -/
theorem filterMap_filenamesOf (space : String) :
    (filenamesOf c.files space).filterMap c.file? = c.files.filter fun f => f.space == space := by
  rw [filenamesOf, List.filterMap_map]
  refine (List.filterMap_congr fun f hf => ?_).trans List.filterMap_some
  exact (file?_eq_some_iff h).2 ⟨(List.mem_filter.1 hf).1, rfl⟩

end Catalog

namespace Registry

/-- A registry that was filled by any operations answers, once it is closed, from what was
registered. A file is taken on if and only if neither its name nor that of its document was taken.
The files of the closed registry are in order of name, and become documents of different names; they
are those that were taken on and got a schema after that, with the one that they got last. A
namespace is declared if one of them declares it, and an import of it is answered with all that do,
each once and in order of name; an import of any other namespace is a problem. -/
theorem closed_exact (operations : List Operation) :
    (∀ before filename identifier text,
      (∃ result, (run before).register filename identifier text = .ok result) ↔
        IsFree before filename identifier) ∧
    ((run operations).close.files.map File.filename).Pairwise (· < ·) ∧
    ((run operations).close.files.map File.identifier).Nodup ∧
    (∀ f, f ∈ (run operations).close.files ↔
      Submits operations ⟨f.filename, f.identifier, f.text, some f.schema⟩) ∧
    ∀ space,
      ((run operations).close.declares space = true ↔
        ∃ f ∈ (run operations).close.files, f.schema.targetSpace = space) ∧
      ∀ filename,
        (∃ files, (run operations).close.resolveImport filename space = .ok files ∧
          files ≠ [] ∧ (files.map File.filename).Pairwise (· < ·) ∧
          ∀ f, f ∈ files ↔ f ∈ (run operations).close.files ∧ f.schema.targetSpace = space) ∨
        (∀ f ∈ (run operations).close.files, f.schema.targetSpace ≠ space) ∧
          (run operations).close.resolveImport filename space =
            .error (.unresolvedNamespace filename space) := by
  have hsorted := (isApart_run operations).pairwise_filename
  have hdeclares : ∀ space, (run operations).close.declares space = true ↔
      ∃ f ∈ (run operations).close.files, f.schema.targetSpace = space := fun space => by
    rw [Catalog.declares_eq, List.any_eq_true]
    simp only [beq_iff_eq, File.space]
  refine ⟨fun before filename identifier text => ?_, hsorted,
    (isApart_run operations).nodup_identifier, fun f => mem_close_iff.trans (mem_run_iff _),
    fun space => ⟨hdeclares space, fun filename => ?_⟩⟩
  · simp only [register_eq_ok_iff, exists_and_left, exists_eq, and_true]
    exact clashes_run_eq_false_iff before
  · rw [Catalog.resolveImport_eq, Catalog.filterMap_filenamesOf hsorted]
    by_cases hd : (run operations).close.declares space = true
    · obtain ⟨f, hf, hspace⟩ := (hdeclares space).1 hd
      refine .inl ⟨_, if_pos hd, ?_, hsorted.sublist (List.filter_sublist.map _), fun g => ?_⟩
      · exact List.ne_nil_of_mem (List.mem_filter.2 ⟨hf, beq_iff_eq.2 hspace⟩)
      · rw [List.mem_filter, beq_iff_eq, File.space]
    · exact .inr ⟨fun f hf hspace => hd ((hdeclares space).2 ⟨f, hf, hspace⟩), if_neg hd⟩

/-- A schema that declares nothing in its namespace. -/
def vacantSchema (space : String) : Schema :=
  ⟨space, .unqualified, .unqualified, [], [], none, [], [], [], [], []⟩

-- The second registration is refused, no file has the name `c`, and `b` never gets a schema.
example : (run [.register "a" "x" "", .register "b" "x" "", .attach "c" (vacantSchema "1"),
    .attach "a" (vacantSchema "2"), .register "b" "y" "", .attach "a" (vacantSchema "3")]
    ).close.files.map (fun f => (f.filename, f.space)) = [("a", "3")] := by decide

end Registry

end Crosswalk
