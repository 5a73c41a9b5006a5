import Crosswalk.Json.Basic
import Crosswalk.Text.Basic

/-!
# Options of a conversion

Every choice that a batch leaves open is one value, handed to whatever depends on it. Options are
written as an object in which every member may be missing; an unknown member, or a value of
another type, is refused.
-/

namespace Crosswalk

/-- What becomes of members that a content model does not declare. -/
inductive Openness where
  /-- They are refused. -/
  | closed
  /-- They are admitted. -/
  | open
  deriving DecidableEq, Repr

/-- What becomes of a name that its namespace does not declare. -/
inductive Resolution where
  /-- The batch fails. -/
  | strict
  /-- The one declaration of that local name in the namespaces at hand takes its place. -/
  | lenient
  deriving DecidableEq, Repr

/-- The options of a batch. -/
structure Options where
  additionalProperties : Openness := .closed
  resolution : Resolution := .strict
  /-- Whether the names of qualified elements and attributes carry their prefix. -/
  qualifiedPropertyNames : Bool := false
  /-- The property of character data. -/
  textProperty : String := "#text"
  /-- The extension of document names. -/
  outputExtension : String := "json"
  /-- Whether files may be worked on side by side; the result does not depend on it. -/
  parallel : Bool := true
  deriving DecidableEq, Repr

namespace Options

/-- The default, with lenient resolution. -/
def lenient : Options := { resolution := .lenient }

/-- Whether undeclared members are refused. -/
def isClosed (o : Options) : Bool := o.additionalProperties == .closed

/-- What follows the last separator of directories. -/
def baseName (filename : List Char) : List Char :=
  Text.lastPiece (fun c => c == '/' || c == '\\') filename

/-- A name without its extension: what stands before the last point, unless nothing does. -/
def stem (name : List Char) : List Char :=
  match (name.reverse.dropWhile (· != '.')).drop 1 with
  | [] => name
  | before => before.reverse

/-- The name of the document that a file becomes: that of the file without directory, with
another extension. -/
def identifierOf (o : Options) (filename : String) : String :=
  String.ofList (stem (baseName filename.toList)) ++ "." ++ o.outputExtension

/-! ### Reading and writing -/

/-- The word that stands for a choice: a string, or the one member of an object with no value. -/
def word? : Json → Option String
  | .string s => some s
  | .object [(name, .null)] => some name
  | _ => none

def openness? (value : Json) : Option Openness := do
  let word ← word? value
  if word = "closed" then some .closed else if word = "open" then some .open else none

def resolution? (value : Json) : Option Resolution := do
  let word ← word? value
  if word = "strict" then some .strict else if word = "lenient" then some .lenient else none

/-- Options with the value of one member. -/
def set? (o : Options) (member : String × Json) : Option Options :=
  let (name, value) := member
  if name = "additional_properties" then
    (openness? value).map fun v => { o with additionalProperties := v }
  else if name = "resolution" then (resolution? value).map fun v => { o with resolution := v }
  else if name = "qualified_property_names" then
    value.bool?.map fun v => { o with qualifiedPropertyNames := v }
  else if name = "text_property" then value.string?.map fun v => { o with textProperty := v }
  else if name = "output_extension" then value.string?.map fun v => { o with outputExtension := v }
  else if name = "parallel" then value.bool?.map fun v => { o with parallel := v }
  else none

/-- The options that an object states. -/
def ofJson? (value : Json) : Option Options := do
  let members ← value.fields?
  members.foldlM set? {}

/-- The options as an object with all its members. -/
def toJson (o : Options) : Json := .ofFields [
  ("additional_properties", .string (if o.isClosed then "closed" else "open")),
  ("resolution", .string (if o.resolution = .strict then "strict" else "lenient")),
  ("qualified_property_names", .bool o.qualifiedPropertyNames),
  ("text_property", .string o.textProperty),
  ("output_extension", .string o.outputExtension),
  ("parallel", .bool o.parallel)]

end Options

end Crosswalk
