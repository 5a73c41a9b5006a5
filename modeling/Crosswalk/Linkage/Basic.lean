import Crosswalk.Catalog
import Crosswalk.Datatype
import Crosswalk.Linkage.Reference
import Crosswalk.Options

/-!
# The declarations of a batch, linked

`Declarations` lists what the files of a catalog declare, by kind and name; of two declarations of
one name the first counts. A `Linkage` answers which declaration a name stands for, seen from a
file: its own kind and name, and in lenient resolution, if there is none, the only declaration of
that local name in the namespaces of the file and its imports. `Linkage.ofCatalog` builds it and
reports what does not link: names declared twice, imports of namespaces that no file declares,
names that stand for nothing, and declarations that loop back on themselves. It never stops at
the first problem.
-/

namespace Crosswalk

/-- A declaration with the file that makes it. -/
structure Located (α : Type) where
  file : File
  declaration : α

/-- The top-level declarations of a batch. -/
structure Declarations where
  types : Table QName (Located NamedType) := []
  elements : Table QName (Located Element) := []
  groups : Table QName (Located NamedGroup) := []
  attributes : Table QName (Located Attribute) := []
  attributeGroups : Table QName (Located AttributeGroup) := []

namespace Declarations

/-- Adds a declaration, unless its name is taken, which is a problem. -/
def declare {α : Type} (kind : DeclarationKind) (file : File) (name : QName) (declaration : α)
    (table : Table QName (Located α)) : Table QName (Located α) × List Problem :=
  match table.find? name with
  | some first =>
    (table, [.duplicateDeclaration file.filename kind name first.file.filename])
  | none => (table.insert name ⟨file, declaration⟩, [])

/-- Adds declarations of one kind in turn. -/
def declareAll {α : Type} (kind : DeclarationKind) (file : File) (name : α → QName) :
    List α → Table QName (Located α) → Table QName (Located α) × List Problem
  | [], table => (table, [])
  | d :: rest, table =>
    let (table, problems) := declare kind file (name d) d table
    let (table, more) := declareAll kind file name rest table
    (table, problems ++ more)

/-- Adds the declarations of a file, kind by kind. -/
def addFile (d : Declarations) (file : File) : Declarations × List Problem :=
  let (types, p1) := declareAll .type file NamedType.name file.schema.types d.types
  let (elements, p2) := declareAll .element file Element.name file.schema.elements d.elements
  let (groups, p3) := declareAll .group file NamedGroup.name file.schema.groups d.groups
  let (attributes, p4) :=
    declareAll .attribute file Attribute.name file.schema.attributes d.attributes
  let (attributeGroups, p5) := declareAll .attributeGroup file AttributeGroup.name
    file.schema.attributeGroups d.attributeGroups
  (⟨types, elements, groups, attributes, attributeGroups⟩, p1 ++ p2 ++ p3 ++ p4 ++ p5)

/-- Adds the declarations of files in turn. -/
def addFiles (d : Declarations) : List File → Declarations × List Problem
  | [] => (d, [])
  | file :: rest =>
    let (d, problems) := d.addFile file
    let (d, more) := d.addFiles rest
    (d, problems ++ more)

/-- Whether a name of a kind is declared. -/
def contains (d : Declarations) (kind : DeclarationKind) (name : QName) : Bool :=
  match kind with
  | .type => d.types.contains name
  | .element => d.elements.contains name
  | .group => d.groups.contains name
  | .attribute => d.attributes.contains name
  | .attributeGroup => d.attributeGroups.contains name

end Declarations

/-- What a name stands for: the name of the declaration, and whether it was found by its local part
alone. -/
structure Resolved where
  name : QName
  aliased : Bool
  deriving DecidableEq, Repr

/-- The declarations of a batch with the rules that lead from a name to one. -/
structure Linkage where
  catalog : Catalog
  resolution : Resolution
  declarations : Declarations
  /-- How often each model group is referred to in the batch. -/
  groupUses : Table QName Nat := []

namespace Linkage

/-- The namespace of a file and those it imports, each at its first mention. -/
def spacesAround (file : File) : List String :=
  file.schema.importedSpaces.foldl (fun spaces space =>
    if spaces.contains space then spaces else spaces ++ [space]) [file.space]

/-- The declarations of a local name in the namespaces around a file. -/
def candidates (l : Linkage) (kind : DeclarationKind) (file : File) (name : String) :
    List QName :=
  ((spacesAround file).map fun space => (⟨space, name⟩ : QName)).filter fun q =>
    l.declarations.contains kind q

/-- What a name stands for, seen from a file. The names of XML Schema itself are types that stand
for themselves. -/
def resolve? (l : Linkage) (kind : DeclarationKind) (file : File) (name : QName) :
    Option Resolved :=
  if name.isBuiltin then
    if kind = .type ∧ Datatype.isKnown name.name then some ⟨name, false⟩ else none
  else if l.declarations.contains kind name then some ⟨name, false⟩
  else if l.resolution = .strict then none
  else match l.candidates kind file name.name with
    | [only] => some ⟨only, true⟩
    | _ => none

/-- The named type that a name stands for. -/
def type? (l : Linkage) (file : File) (name : QName) : Option (Located NamedType) :=
  (l.resolve? .type file name).bind fun r => l.declarations.types.find? r.name

/-- The global element that a name stands for. -/
def element? (l : Linkage) (file : File) (name : QName) : Option (Located Element) :=
  (l.resolve? .element file name).bind fun r => l.declarations.elements.find? r.name

/-- The model group that a name stands for. -/
def group? (l : Linkage) (file : File) (name : QName) : Option (Located NamedGroup) :=
  (l.resolve? .group file name).bind fun r => l.declarations.groups.find? r.name

/-- The global attribute that a name stands for. -/
def attribute? (l : Linkage) (file : File) (name : QName) : Option (Located Attribute) :=
  (l.resolve? .attribute file name).bind fun r => l.declarations.attributes.find? r.name

/-- The attribute group that a name stands for. -/
def attributeGroup? (l : Linkage) (file : File) (name : QName) :
    Option (Located AttributeGroup) :=
  (l.resolve? .attributeGroup file name).bind fun r => l.declarations.attributeGroups.find? r.name

/-- How often a model group is referred to. -/
def groupUseCount (l : Linkage) (name : QName) : Nat := (l.groupUses.find? name).getD 0

/-- Whether a model group is referred to more than once. It is then written once, and referred to
in the documents as well. -/
def isReused (l : Linkage) (name : QName) : Bool := 1 < l.groupUseCount name

/-! ### Checks -/

/-- The imports of a file that no file answers. The namespace of XML Schema itself needs none. -/
def importProblems (catalog : Catalog) (file : File) : List Problem :=
  file.schema.imports.filterMap fun i =>
    if i.kind = .imported ∧ i.space = QName.xsdSpace then none
    else match catalog.resolveImport file.filename i.space with
      | .ok _ => none
      | .error p => some p

/-- The problem of a name that stands for nothing: its namespace, if no file declares that. -/
def unresolved (l : Linkage) (file : File) (r : Reference) : Problem :=
  if r.name.isBuiltin || l.catalog.declares r.name.space then
    .unresolvedName file.filename r.location r.name
  else .unresolvedNamespace file.filename r.name.space

/-- The references followed so far. -/
structure Tally where
  groupUses : Table QName Nat := []
  /-- The references reported, by file, kind and name. -/
  reported : List (String × DeclarationKind × QName) := []
  problems : List Problem := []

/-- Reports a problem of a reference, unless one of the same name from the same file was reported
before. -/
def Tally.report (t : Tally) (file : File) (r : Reference) (p : Problem) : Tally :=
  let entry := (file.filename, r.kind, r.name)
  if entry ∈ t.reported then t
  else { t with reported := entry :: t.reported, problems := t.problems ++ [p] }

/-- Counts a use of a group. -/
def Tally.count (t : Tally) (name : QName) : Tally :=
  { t with groupUses := t.groupUses.insert name ((t.groupUses.find? name).getD 0 + 1) }

/-- Follows a reference from a file. -/
def follow (l : Linkage) (t : Tally) (use : File × Reference) : Tally :=
  let (file, r) := use
  match l.resolve? r.kind file r.name with
  | none => t.report file r (l.unresolved file r)
  | some resolved =>
    let t := if r.kind = .group then t.count resolved.name else t
    if resolved.aliased then
      t.report file r (.unsupported file.filename r.location
        (r.kind.text ++ " reference " ++ r.name.text ++ " resolved by local name to " ++
          resolved.name.text))
    else t

/-- The references of all files. -/
def allReferences (catalog : Catalog) : List (File × Reference) :=
  catalog.files.flatMap fun file => file.schema.references.map fun r => (file, r)

/-- Follows the bases of a type. The result is the chain up to a type that is in it already, if
there is such a type; at most so many steps lead from one type to another that is new. -/
def baseLoop? (l : Linkage) : Nat → List QName → Located NamedType → Option (List QName)
  | 0, _, _ => none
  | steps + 1, chain, current =>
    match current.declaration.definition.base? with
    | none => none
    | some base =>
      match l.type? current.file base with
      | none => none
      | some next =>
        if next.declaration.name ∈ chain then some chain
        else baseLoop? l steps (chain ++ [next.declaration.name]) next

/-- The types whose bases loop, one for each loop: a type on a chain that was reported is passed
over. -/
def typeCycles (l : Linkage) (known : List QName) :
    List (QName × Located NamedType) → List Problem
  | [] => []
  | (name, located) :: rest =>
    if name ∈ known then typeCycles l known rest
    else match l.baseLoop? (l.declarations.types.length + 1) [name] located with
      | some chain =>
        .cycle located.file.filename name :: typeCycles l (known ++ chain) rest
      | none => typeCycles l known rest

/-- Whether expanding a group leads to one that is on the path. A path holds every group at most
once, and so ends within as many steps as there are groups. -/
def groupLoops (l : Linkage) : Nat → List QName → File → ModelGroup → Bool
  | 0, _, _, _ => false
  | steps + 1, path, file, group =>
    group.groupRefs.any fun name =>
      match l.group? file name with
      | none => false
      | some target =>
        path.contains target.declaration.name ||
          groupLoops l steps (path ++ [target.declaration.name]) target.file
            target.declaration.group

/-- The groups whose expansion does not end. -/
def groupCycles (l : Linkage) : List Problem :=
  l.declarations.groups.filterMap fun (name, located) =>
    if l.groupLoops (l.declarations.groups.length + 1) [name] located.file
        located.declaration.group then
      some (.cycle located.file.filename name)
    else none

/-- The declarations that loop back on themselves. -/
def cycles (l : Linkage) : List Problem := l.typeCycles [] l.declarations.types ++ l.groupCycles

/-- Links the files of a batch: the linkage, and every problem found. -/
def ofCatalog (catalog : Catalog) (resolution : Resolution) : Linkage × List Problem :=
  let (declarations, duplicates) := ({} : Declarations).addFiles catalog.files
  let imports := catalog.files.flatMap (importProblems catalog)
  let bare : Linkage := { catalog, resolution, declarations }
  let tally := (allReferences catalog).foldl bare.follow {}
  let linked := { bare with groupUses := tally.groupUses }
  (linked, duplicates ++ imports ++ tally.problems ++ linked.cycles)

end Linkage

end Crosswalk
