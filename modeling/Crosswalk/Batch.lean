import Crosswalk.Document
import Crosswalk.Schema.Reader

/-!
# Batches

`Batch.ofFiles` takes files and gives their documents. It goes in phases: every file is registered
and read before any name is resolved, and all names are resolved before any declaration is
converted, so that neither the order of the files nor that of their declarations matters. A phase
collects all of its problems; the first phase that has a fatal one is the last, and the batch fails
with everything collected so far. A batch that succeeds keeps the others as diagnostics.

A `Session` remembers the last batch as long as it succeeded.
-/

namespace Crosswalk

/-- A batch that succeeded. -/
structure Batch where
  /-- The documents in order of source file. -/
  documents : List Document
  /-- The problems met, none of them fatal, in order of file. -/
  diagnostics : List Problem

namespace Batch

/-- Registers files in turn. Those refused are problems. -/
def registerAll (options : Options) : List (String × String) → Registry → Registry × List Problem
  | [], registry => (registry, [])
  | (filename, text) :: rest, registry =>
    match registry.register filename (options.identifierOf filename) text with
    | .ok registry => registerAll options rest registry
    | .error problem =>
      let (registry, problems) := registerAll options rest registry
      (registry, problem :: problems)

/-- Reads submissions in turn and attaches their schemas. -/
def readAll : List Submission → Registry → Registry × List Problem
  | [], registry => (registry, [])
  | s :: rest, registry =>
    let (registry, problems) := match Schema.ofText s.filename s.text with
      | .ok (schema, diagnostics) => (registry.attach s.filename schema, diagnostics)
      | .error problem => (registry, [problem])
    let (registry, more) := readAll rest registry
    (registry, problems ++ more)

/-- The files of a batch as far as they can be registered and read, and the problems met. -/
def collect (options : Options) (files : List (String × String)) : Registry × List Problem :=
  let (registry, refused) := registerAll options files .empty
  let (registry, problems) := readAll registry.submissions.values registry
  (registry, refused ++ problems)

/-- The document of a file in a linked batch, and the problems of its declarations. -/
def convert (options : Options) (linkage : Linkage) (file : File) : Document × List Problem :=
  let (converted, problems) := Conversion.convertFile ⟨linkage, options, file⟩
  (Document.assemble options file.filename file.identifier file.schema.documentation converted,
    problems)

/-- Fails with all problems so far if one of them is fatal. -/
def checkpoint (problems : List Problem) : Except (List Problem) Unit :=
  if problems.any Problem.isFatal then .error (Problem.sortByFile problems) else .ok ()

/-- The documents of files, given by name and text; or all problems, if one of them is fatal. -/
def ofFiles (options : Options) (files : List (String × String)) :
    Except (List Problem) Batch := do
  let (registry, problems) := collect options files
  checkpoint problems
  let catalog := registry.close
  let (linkage, unlinked) := Linkage.ofCatalog catalog options.resolution
  let problems := problems ++ unlinked
  checkpoint problems
  let converted := catalog.files.map (convert options linkage)
  let documents := converted.map (·.1)
  let problems := problems ++ converted.flatMap (·.2)
  checkpoint problems
  let problems := problems ++ Document.brokenLinks documents
  checkpoint problems
  return ⟨documents, Problem.sortByFile problems⟩

/-- The document of a file, which may be named by its own name or by that of its document. -/
def document? (batch : Batch) (name : String) : Except Problem Document :=
  let bySource := batch.documents.find? fun d => d.source == name
  match bySource.or (batch.documents.find? fun d => d.identifier == name) with
  | some document => .ok document
  | none => .error (.notProcessed name)

end Batch

/-- Batches run one after the other, with the same options. -/
structure Session where
  options : Options
  /-- The last batch, if it succeeded. -/
  last : Option Batch := none

namespace Session

/-- Runs a batch. One that fails leaves nothing behind, not even the batch before it. -/
def process (session : Session) (files : List (String × String)) :
    Session × Except (List Problem) Batch :=
  let result := Batch.ofFiles session.options files
  ({ session with last := result.toOption }, result)

/-- A document of the last batch. -/
def document? (session : Session) (name : String) : Except Problem Document :=
  match session.last with
  | some batch => batch.document? name
  | none => .error (.notProcessed name)

end Session

end Crosswalk
