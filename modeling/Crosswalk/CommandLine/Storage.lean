import Crosswalk.Table
import Crosswalk.Text.Basic

/-!
# Paths and files

A path is a list of steps with slashes between them. Steps that are empty or a single point lead
nowhere.

What the program does with files is told by a `Storage`: it reads texts, creates directories and
writes texts, and each of these may fail. A `Disk` holds files and directories below one directory,
and `Disk.storage` works on it, so that a run of the program is a function from one disk to another.
-/

namespace Crosswalk

/-! ### Paths -/

namespace Path

/-- The steps of a path, empty ones included. -/
def steps (path : String) : List String := (Text.pieces '/' path.toList).map String.ofList

/-- Whether a step leads nowhere. -/
def isIdle (step : String) : Bool := step = "" || step = "."

/-- The name of the file that a path leads to, if its last step is a name. -/
def fileName? (path : String) : Option String :=
  match ((steps path).filter fun s => !isIdle s).getLast? with
  | some ".." => none
  | last => last

/-- What follows the last point of a file name; a point that stands first begins a name. -/
def extension? (path : String) : Option String :=
  (fileName? path).bind fun name =>
    let ending := Text.lastPiece (· == '.') name.toList
    if ending.length + 1 < name.length then some (String.ofList ending) else none

/-- The path of a file in a directory. -/
def join (directory name : String) : String :=
  if directory = "" || name.startsWith "/" then name
  else if directory.endsWith "/" then directory ++ name
  else directory ++ "/" ++ name

end Path

/-! ### Files -/

/-- Why files cannot be read or written. -/
inductive StorageError where
  | notFound
  | alreadyExists
  | notDirectory
  | isDirectory
  | other (text : String)
  deriving DecidableEq, Repr

/-- The text of the error. -/
def StorageError.message : StorageError → String
  | notFound => "No such file or directory (os error 2)"
  | alreadyExists => "File exists (os error 17)"
  | notDirectory => "Not a directory (os error 20)"
  | isDirectory => "Is a directory (os error 21)"
  | other text => text

/-- What can be done with files. -/
structure Storage (m : Type → Type) where
  readText : String → m (Except StorageError String)
  /-- Creates a directory and those that it lies in, as far as they are not there. -/
  createDirectories : String → m (Except StorageError Unit)
  writeText : String → String → m (Except StorageError Unit)

/-- Files and directories, each by the path that leads to it without idle steps. -/
structure Disk where
  files : Table String String := []
  /-- The directories that were created. Others hold a file. -/
  directories : List String := []

namespace Disk

/-- What a path leads to. -/
inductive Entry where
  | file (text : String)
  | directory
  | absent

/-- The path of steps, the last of which is the first in the list. -/
def pathOf (here : List String) : String := Text.join "/" here.reverse

/-- What steps lead to. -/
def entry (d : Disk) (here : List String) : Entry :=
  let path := pathOf here
  if here.isEmpty then .directory
  else match d.files.find? path with
    | some text => .file text
    | none =>
      if d.directories.contains path || d.files.keys.any fun f => f.startsWith (path ++ "/") then
        .directory
      else .absent

/-- Follows steps from a place. Every step begins in a directory. -/
def walk (d : Disk) (here : List String) : List String → Except StorageError (List String)
  | [] => .ok here
  | step :: rest =>
    match d.entry here with
    | .file _ => .error .notDirectory
    | .absent => .error .notFound
    | .directory =>
      if Path.isIdle step then walk d here rest
      else if step = ".." then
        match here with
        | _ :: above => walk d above rest
        | [] => .error .notFound
      else walk d (step :: here) rest

/-- The place that a path leads to. Places outside of the disk are not found. -/
def locate (d : Disk) (path : String) : Except StorageError (List String) :=
  if path = "" || path.startsWith "/" then .error .notFound else d.walk [] (Path.steps path)

/-- The text of a file. -/
def readText (d : Disk) (path : String) : Except StorageError String := do
  match d.entry (← d.locate path) with
  | .file text => .ok text
  | .directory => .error .isDirectory
  | .absent => .error .notFound

/-- The disk with a text in a file. -/
def writeText (d : Disk) (path text : String) : Except StorageError Disk := do
  let here ← d.locate path
  match d.entry here with
  | .directory => .error .isDirectory
  | _ => .ok { d with files := d.files.insert (pathOf here) text }

/-- Creates the directories that steps lead through. -/
def createAlong (d : Disk) (here : List String) : List String → Except StorageError Disk
  | [] => .ok d
  | ".." :: rest =>
    match here with
    | _ :: above => createAlong d above rest
    | [] => .error .notFound
  | step :: rest =>
    let here := step :: here
    match d.entry here with
    | .file _ => .error (if rest.isEmpty then .alreadyExists else .notDirectory)
    | .directory => createAlong d here rest
    | .absent => createAlong { d with directories := pathOf here :: d.directories } here rest

/-- The disk with a directory and those that it lies in. -/
def createDirectories (d : Disk) (path : String) : Except StorageError Disk :=
  if path.startsWith "/" then .error .notFound
  else d.createAlong [] ((Path.steps path).filter fun s => !Path.isIdle s)

/-- Changes a disk, unless that fails. -/
def change (f : Disk → Except StorageError Disk) : StateM Disk (Except StorageError Unit) :=
  fun d =>
    match f d with
    | .ok after => (.ok (), after)
    | .error e => (.error e, d)

/-- The files of a disk as storage. -/
def storage : Storage (StateM Disk) where
  readText path := fun d => (d.readText path, d)
  createDirectories path := change fun d => d.createDirectories path
  writeText path text := change fun d => d.writeText path text

/-- The files that are new or different after a run. -/
def changes (before after : Disk) : Table String String :=
  after.files.filter fun (path, text) => before.files.find? path != some text

end Disk

end Crosswalk
