import Crosswalk.QName
import Crosswalk.Text.Basic

/-!
# Problems of a batch

A problem is fatal if a batch that has it exposes no document at all: a pointer from another
document could lead nowhere. Unsupported constructs and facets that widen their base are not
fatal, and travel with the result.
-/

namespace Crosswalk

/-- The kinds of top-level declarations, each with its own names. -/
inductive DeclarationKind where
  | type
  | element
  | group
  | attribute
  | attributeGroup
  deriving DecidableEq, Repr

namespace DeclarationKind

/-- The kind in messages. -/
def text : DeclarationKind → String
  | .type => "type"
  | .element => "element"
  | .group => "group"
  | .attribute => "attribute"
  | .attributeGroup => "attributeGroup"

def all : List DeclarationKind := [.type, .element, .group, .attribute, .attributeGroup]

/-- The kind with this text. -/
def ofText? (text : String) : Option DeclarationKind := all.find? fun kind => kind.text == text

@[simp] theorem ofText?_text (kind : DeclarationKind) : ofText? kind.text = some kind := by
  cases kind <;> decide

end DeclarationKind

/-- What can go wrong with a file. -/
inductive Problem where
  /-- The file's name, or the name of its document, is taken by another file of the batch. -/
  | duplicateFile (filename : String)
  /-- The text of the file is no schema. -/
  | malformed (filename reason : String)
  /-- A construct without counterpart in the documents was passed over. -/
  | unsupported (filename location construct : String)
  /-- No file of the batch declares the namespace. -/
  | unresolvedNamespace (filename space : String)
  /-- The namespace is known, and the name is not declared in it. -/
  | unresolvedName (filename referencing : String) (missing : QName)
  /-- The name was declared before, with the same kind. -/
  | duplicateDeclaration (filename : String) (kind : DeclarationKind) (name : QName)
      (firstFilename : String)
  /-- The declaration contains or derives from itself. -/
  | cycle (filename : String) (name : QName)
  /-- A facet admits more than the type it restricts; the inherited one is kept. -/
  | widening (filename typeName facet baseValue value : String)
  /-- No document was made from the file. -/
  | notProcessed (filename : String)
  deriving DecidableEq, Repr

namespace Problem

/-- The file that has the problem. -/
def filename : Problem → String
  | duplicateFile f => f
  | malformed f _ => f
  | unsupported f _ _ => f
  | unresolvedNamespace f _ => f
  | unresolvedName f _ _ => f
  | duplicateDeclaration f _ _ _ => f
  | cycle f _ => f
  | widening f _ _ _ _ => f
  | notProcessed f => f

/-- Whether a batch with the problem fails. -/
def isFatal : Problem → Bool
  | unsupported .. => false
  | widening .. => false
  | _ => true

/-- The stable name of the kind of problem. -/
def code : Problem → String
  | duplicateFile .. => "DuplicateFileError"
  | malformed .. => "MalformedSchemaError"
  | unsupported .. => "UnsupportedConstructError"
  | unresolvedNamespace .. => "UnresolvedNamespaceError"
  | unresolvedName .. => "UnresolvedTypeReferenceError"
  | duplicateDeclaration .. => "DuplicateDeclarationError"
  | cycle .. => "DerivationCycleError"
  | widening .. => "FacetNarrowingViolation"
  | notProcessed .. => "NotProcessedError"

/-- The text of the problem. -/
def message : Problem → String
  | duplicateFile f => "duplicate file '" ++ f ++ "' in batch"
  | malformed f reason => "malformed schema '" ++ f ++ "': " ++ reason
  | unsupported f location construct =>
    "unsupported construct in '" ++ f ++ "' at " ++ location ++ ": " ++ construct
  | unresolvedNamespace f space =>
    "unresolved namespace '" ++ space ++ "' referenced from '" ++ f ++ "'"
  | unresolvedName f referencing missing =>
    "unresolved reference in '" ++ f ++ "': " ++ referencing ++ " refers to missing " ++
      missing.text
  | duplicateDeclaration f kind name first =>
    "duplicate " ++ kind.text ++ " declaration " ++ name.text ++ " in '" ++ f ++
      "' (first declared in '" ++ first ++ "')"
  | cycle f name => "derivation cycle in '" ++ f ++ "' through " ++ name.text
  | widening f typeName facet baseValue value =>
    "facet '" ++ facet ++ "' of " ++ typeName ++ " in '" ++ f ++ "' widens its base (" ++ value ++
      " is less restrictive than " ++ baseValue ++ ")"
  | notProcessed f => "no converted result for '" ++ f ++ "'"

/-- The fatal ones among some problems. -/
def fatal (problems : List Problem) : List Problem := problems.filter isFatal

/-- Puts a problem behind those of files up to its own. -/
def insertByFile (p : Problem) : List Problem → List Problem
  | [] => [p]
  | q :: rest =>
    if p.filename < q.filename then p :: q :: rest else q :: insertByFile p rest

/-- The problems in order of file; those of one file stay in their order. -/
def sortByFile (problems : List Problem) : List Problem :=
  problems.foldl (fun sorted p => insertByFile p sorted) []

/-- The text of a failed batch: a line for each problem. -/
def batchMessage (problems : List Problem) : String :=
  problems.foldl (fun text p => text ++ "\n  [" ++ p.code ++ "] " ++ p.message)
    ("schema batch failed with " ++ toString problems.length ++ " error(s)")

end Problem

end Crosswalk
