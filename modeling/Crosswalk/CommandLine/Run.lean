import Crosswalk.Batch
import Crosswalk.CommandLine.Arguments
import Crosswalk.CommandLine.Storage
import Crosswalk.Json.Reader
import Crosswalk.Validation.SchemaSet

/-!
# Runs of the program

A run does what a request asks for, and tells what it comes to: the exit code, and the texts for the
two output channels. A batch that fails and an instance that is not valid are results, with code 1.
Files that cannot be read or written, and requests about documents that are not there, end the run
with code 2, and with what was said so far.
-/

namespace Crosswalk

namespace CommandLine

/-- What a run comes to. -/
structure Outcome where
  exit : Nat
  output : String
  errors : String
  deriving DecidableEq, Repr

/-- What was said so far. -/
structure Said where
  output : String := ""
  errors : String := ""

/-- Work that talks, and may end early with a message. -/
abbrev Task (m : Type → Type) (α : Type) := ExceptT String (StateT Said m) α

section Tasks

variable {m : Type → Type} [Monad m]

/-- Says a line. -/
def say (line : String) : Task m Unit :=
  modify fun s => { s with output := s.output ++ line ++ "\n" }

/-- Says a line about something that went wrong. -/
def warn (line : String) : Task m Unit :=
  modify fun s => { s with errors := s.errors ++ line ++ "\n" }

/-- The result of work on files; what it was for is put before the message of its failure. -/
def attempt {α : Type} (purpose : String) (work : m (Except StorageError α)) : Task m α := do
  match ← (liftM (n := StateT Said m) work : StateT Said m (Except StorageError α)) with
  | .ok a => return a
  | .error e => throw (purpose ++ ": " ++ e.message)

/-- The schema files of a batch, each by its name without directories. -/
def readSchemas (storage : Storage m) : List String → Task m (List (String × String))
  | [] => return []
  | path :: rest => do
    match Path.fileName? path with
    | none => throw ("not a file name: " ++ path)
    | some name =>
      let text ← attempt ("failed to read schema: " ++ path) (storage.readText path)
      let more ← readSchemas storage rest
      return (name, text) :: more

/-- The options that a file states, or the default. -/
def readOptions (storage : Storage m) (config : Option String) : Task m Options := do
  match config with
  | none => return {}
  | some path =>
    let text ← attempt ("failed to read config: " ++ path) (storage.readText path)
    match (Json.ofText? text).bind Options.ofJson? with
    | some options => return options
    | none => throw ("invalid conversion options in " ++ path)

/-- The line of a problem. -/
def problemLine (p : Problem) : String :=
  "  " ++ (if p.isFatal then "error" else "warning") ++ "[" ++ p.code ++ "] " ++ p.message

/-- Says lines about problems. -/
def warnProblems : List Problem → Task m Unit
  | [] => return ()
  | p :: rest => do
    warn (problemLine p)
    warnProblems rest

/-- The batch of the files of a request; none if it fails, which is told. -/
def readBatch (storage : Storage m) (schemas : List String) (config : Option String) :
    Task m (Option Batch) := do
  let options ← readOptions storage config
  let files ← readSchemas storage schemas
  match Batch.ofFiles options files with
  | .ok batch => return some batch
  | .error problems =>
    warn ("conversion failed with " ++ toString problems.length ++ " error(s):")
    warnProblems problems
    return none

/-- The text of a document in a file. -/
def documentText (pretty : Bool) (d : Document) : String :=
  if pretty then d.schema.pretty ++ "\n" else d.schema.canonical

/-- Writes documents into a directory. -/
def writeDocuments (storage : Storage m) (directory : String) (pretty : Bool) :
    List Document → Task m Unit
  | [] => return ()
  | d :: rest => do
    let path := Path.join directory d.identifier
    attempt ("failed to write " ++ path) (storage.writeText path (documentText pretty d))
    writeDocuments storage directory pretty rest

/-- A text filled up with blanks to a width. -/
def padded (width : Nat) (text : String) : String :=
  text ++ String.ofList (List.replicate (width - text.length) ' ')

/-- Says the name and digest of each document. -/
def sayDocuments : List Document → Task m Unit
  | [] => return ()
  | d :: rest => do
    say (padded 32 d.identifier ++ " " ++ d.schema.digest)
    sayDocuments rest

/-- Converts schema files, and writes the documents. -/
def convert (storage : Storage m) (schemas : List String) (directory : String)
    (config : Option String) (pretty : Bool) : Task m Nat := do
  match ← readBatch storage schemas config with
  | none => return 1
  | some batch =>
    attempt ("failed to create output directory: " ++ directory)
      (storage.createDirectories directory)
    writeDocuments storage directory pretty batch.documents
    sayDocuments batch.documents
    warnProblems batch.diagnostics
    return 0

/-- Whether the extension of a file is one of YAML. -/
def isYaml (path : String) : Bool :=
  (Path.extension? path).any fun e => ["yaml", "yml"].contains (e.map Char.toLower)

/-- The instance in a file. -/
def readInstance (storage : Storage m) (path : String) : Task m Json := do
  let text ← attempt ("failed to read instance: " ++ path) (storage.readText path)
  match Json.ofText? text with
  | some value => return value
  | none => throw ("invalid " ++ (if isYaml path then "YAML" else "JSON") ++ " instance: " ++ path)

/-- Checks instances in turn, and says what comes out. The result is the number of those that are
not valid. -/
def checkInstances (storage : Storage m) (set : SchemaSet) (name : String) :
    List String → Task m Nat
  | [] => return 0
  | path :: rest => do
    let value ← readInstance storage path
    match set.validate name value with
    | .ok _ =>
      say ("VALID    " ++ path)
      checkInstances storage set name rest
    | .error (.violations _ vs) =>
      say ("INVALID  " ++ path ++ " (" ++ toString vs.length ++ " violation(s))")
      say (Violation.report vs)
      let others ← checkInstances storage set name rest
      return others + 1
    | .error rejection => throw ("failed to build validator: " ++ rejection.message)

/-- Converts schema files, and checks instances against one of the documents. -/
def validate (storage : Storage m) (schemas : List String) (schema : String)
    (instances : List String) (config : Option String) : Task m Nat := do
  match ← readBatch storage schemas config with
  | none => return 1
  | some batch =>
    match batch.document? schema with
    | .error p => throw ("no document '" ++ schema ++ "' in this batch: " ++ p.message)
    | .ok document =>
      let name := document.identifier
      let invalid ← checkInstances storage (.ofDocuments batch.documents) name instances
      let count := instances.length
      say ""
      say (toString (count - invalid) ++ " of " ++ toString count ++
        " instance(s) valid against " ++ name)
      return if invalid = 0 then 0 else 1

/-- How the program is called. -/
def usage : String :=
  "Usage: xs2js [OPTIONS] <COMMAND>\n\n" ++
  "Commands:\n" ++
  "  convert   <SCHEMAS>... --out-dir <DIRECTORY> [--config <FILE>] [--pretty]\n" ++
  "  validate  <SCHEMAS>... --schema <NAME> --instance <FILE>... [--config <FILE>]\n\n" ++
  "Options:\n" ++
  "  -v, --verbose...  Enable verbose output\n" ++
  "      --log-json    Emit log events as JSON lines\n" ++
  "  -h, --help        Print help\n" ++
  "  -V, --version     Print version\n"

/-- The work of a request. -/
def work (storage : Storage m) : Request → Task m Nat
  | .version => do
    say "xs2js 0.1.0"
    return 0
  | .help => do
    say usage
    return 0
  | .convert schemas directory config pretty => convert storage schemas directory config pretty
  | .validate schemas schema instances config => validate storage schemas schema instances config

/-- Does what a request asks for. -/
def perform (storage : Storage m) (request : Request) : m Outcome := do
  let (result, said) ← (work storage request).run.run {}
  match result with
  | .ok code => return ⟨code, said.output, said.errors⟩
  | .error message => return ⟨2, said.output, said.errors ++ "error: " ++ message ++ "\n"⟩

/-- Does what arguments ask for. -/
def run (storage : Storage m) (arguments : List String) : m Outcome :=
  match Request.ofArguments? arguments with
  | some request => perform storage request
  | none => return ⟨2, "", usage⟩

end Tasks

end CommandLine

end Crosswalk
