import Crosswalk.Problem
import Crosswalk.Schema.Component
import Crosswalk.Table

/-!
# The files of a batch

A batch goes through two phases that cannot be confused. A `Registry` takes submissions and, later,
the schemas read from them; two submissions may share neither their filename nor the name of
their document. Closing it gives a `Catalog`, to which nothing is added: it holds the files that
have a schema, and answers from an index which of them declare a namespace. For that reason a file
may depend on a namespace that a later one declares.
-/

namespace Crosswalk

/-- A file as submitted, with its schema once that is read. -/
structure Submission where
  filename : String
  /-- The name of the document that becomes of it. -/
  identifier : String
  text : String
  schema : Option Schema

/-- A file with its schema. -/
structure File where
  filename : String
  /-- The name of the document that becomes of it. -/
  identifier : String
  text : String
  schema : Schema

namespace File

/-- The namespace of the file's declarations. -/
def space (f : File) : String := f.schema.targetSpace

end File

/-- The file that a submission with a schema is. -/
def Submission.file? (s : Submission) : Option File :=
  s.schema.map fun schema => ⟨s.filename, s.identifier, s.text, schema⟩

/-- The submissions by filename. -/
structure Registry where
  submissions : Table String Submission

namespace Registry

/-- No submissions. -/
def empty : Registry := ⟨[]⟩

/-- Whether a filename or a document name is taken. -/
def clashes (r : Registry) (filename identifier : String) : Bool :=
  r.submissions.contains filename || r.submissions.values.any fun s => s.identifier == identifier

/-- Adds a file, unless its filename or the name of its document is taken. -/
def register (r : Registry) (filename identifier text : String) : Except Problem Registry :=
  if r.clashes filename identifier then .error (.duplicateFile filename)
  else .ok ⟨r.submissions.insert filename ⟨filename, identifier, text, none⟩⟩

/-- Gives a file its schema. A filename that was not registered changes nothing. -/
def attach (r : Registry) (filename : String) (schema : Schema) : Registry :=
  match r.submissions.find? filename with
  | some s => ⟨r.submissions.insert filename { s with schema := some schema }⟩
  | none => r

/-- The filenames in order. -/
def filenames (r : Registry) : List String := r.submissions.keys

/-- How many files have a schema. -/
def attached (r : Registry) : Nat := (r.submissions.values.filter fun s => s.schema.isSome).length

end Registry

/-- The files of a batch in order of filename. -/
structure Catalog where
  files : List File

namespace Registry

/-- Ends registration. Files without schema are left out. -/
def close (r : Registry) : Catalog := ⟨r.submissions.values.filterMap Submission.file?⟩

end Registry

namespace Catalog

/-- The file with a name. -/
def file? (c : Catalog) (filename : String) : Option File :=
  c.files.find? fun f => f.filename == filename

/-- Puts a file into an index, behind the others of its namespace. -/
def enter (index : Table String (List String)) (f : File) : Table String (List String) :=
  index.insert f.space ((index.find? f.space).getD [] ++ [f.filename])

/-- The names of the files by the namespace that they declare. -/
def index (c : Catalog) : Table String (List String) := c.files.foldl enter []

/-- Whether some file declares a namespace. -/
def declares (c : Catalog) (space : String) : Bool := c.index.contains space

/-- The files that declare a namespace on which another file depends; there has to be one. -/
def resolveImport (c : Catalog) (filename space : String) : Except Problem (List File) :=
  match c.index.find? space with
  | some filenames => .ok (filenames.filterMap c.file?)
  | none => .error (.unresolvedNamespace filename space)

/-- The names of the files that declare a namespace. -/
def filenamesOf (files : List File) (space : String) : List String :=
  (files.filter fun f => f.space == space).map File.filename

theorem find?_foldl_enter (files : List File) (index : Table String (List String))
    (space : String) : (files.foldl enter index).find? space =
      if files.any fun f => f.space == space then
        some ((index.find? space).getD [] ++ filenamesOf files space)
      else index.find? space := by
  induction files generalizing index with
  | nil => rfl
  | cons f rest ih =>
      rw [List.foldl_cons, ih, enter, List.any_cons, filenamesOf, filenamesOf, List.filter_cons]
      by_cases hf : f.space = space
      · subst hf
        simp only [Table.find?_insert_self, beq_self_eq_true, Bool.true_or, if_true,
          Option.getD_some, List.map_cons, List.append_assoc, List.singleton_append]
        split
        · rfl
        · next hrest =>
            rw [List.filter_eq_nil_iff.2 (by simpa using hrest), List.map_nil]
      · have hne : (f.space == space) = false := beq_eq_false_iff_ne.2 hf
        rw [Table.find?_insert_of_ne _ _ (Ne.symm hf), hne, Bool.false_or]
        rfl

/-- The index has a namespace if some file declares it, with the names of all files that do. -/
theorem find?_index (c : Catalog) (space : String) : c.index.find? space =
    if c.files.any fun f => f.space == space then some (filenamesOf c.files space) else none := by
  rw [index, find?_foldl_enter]
  rfl

theorem declares_eq (c : Catalog) (space : String) :
    c.declares space = c.files.any fun f => f.space == space := by
  rw [declares, Table.contains, find?_index]
  split
  · next h => exact h.symm
  · next h => exact (Bool.eq_false_iff.2 h).symm

theorem resolveImport_eq (c : Catalog) (filename space : String) :
    c.resolveImport filename space =
      if c.declares space then .ok ((filenamesOf c.files space).filterMap c.file?)
      else .error (.unresolvedNamespace filename space) := by
  rw [resolveImport, find?_index, declares_eq]
  split
  · next h =>
      split at h
      · next hany => rw [if_pos hany, Option.some.inj h]
      · exact nomatch h
  · next h =>
      split at h
      · exact nomatch h
      · next hany => rw [if_neg hany]

end Catalog

end Crosswalk
