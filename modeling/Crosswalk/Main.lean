import Crosswalk.CommandLine.Run

/-!
# The program

The files of the machine as storage, and the entry point.
-/

namespace Crosswalk

namespace CommandLine

/-- The cause of a failure. -/
def storageError : IO.Error → StorageError
  | .noFileOrDirectory _ _ _ => .notFound
  | .alreadyExists _ _ _ => .alreadyExists
  | .inappropriateType _ 20 _ => .notDirectory
  | .inappropriateType _ 21 _ => .isDirectory
  | e => .other (toString e)

/-- Work on files with its failure as a result. -/
def caught {α : Type} (work : IO α) : IO (Except StorageError α) := do
  try
    let a ← work
    return .ok a
  catch e => return .error (storageError e)

/-- The files of the machine. -/
def machine : Storage IO where
  readText path := caught (IO.FS.readFile path)
  createDirectories path := caught (IO.FS.createDirAll path)
  writeText path text := caught (IO.FS.writeFile path text)

end CommandLine

end Crosswalk

/-- Runs the program with its arguments. -/
def main (arguments : List String) : IO UInt32 := do
  let outcome ← Crosswalk.CommandLine.run Crosswalk.CommandLine.machine arguments
  IO.print outcome.output
  IO.eprint outcome.errors
  return outcome.exit.toUInt32
