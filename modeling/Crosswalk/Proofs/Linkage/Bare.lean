import Crosswalk.Proofs.Counterpart.Content
import Crosswalk.Proofs.Schema.Prefixes

/-!
# Files without their prefixes

A file that has lost its text and the prefixes of its root links as it did before, for neither takes
part in linking; and unless names are written with prefixes, it is converted as before, too.
-/

namespace Crosswalk

/-- The file without its text and the prefixes of its root. -/
def File.bare (f : File) : File := { f with text := "", schema := f.schema.withPrefixes [] }

/-- The catalog of such files. -/
def Catalog.bare (c : Catalog) : Catalog := ⟨c.files.map File.bare⟩

/-- A declaration in such a file. -/
def Located.bare {α : Type} (a : Located α) : Located α := ⟨a.file.bare, a.declaration⟩

namespace Declarations

/-- The declarations in such files. -/
def bare (d : Declarations) : Declarations where
  types := d.types.mapValues Located.bare
  elements := d.elements.mapValues Located.bare
  groups := d.groups.mapValues Located.bare
  attributes := d.attributes.mapValues Located.bare
  attributeGroups := d.attributeGroups.mapValues Located.bare

theorem table_bare {α : Type} {row : Row α} (hb : row.IsBasic) (d : Declarations) :
    row.table d.bare = (row.table d).mapValues Located.bare := by
  cases hb <;> rfl

theorem contains_bare (d : Declarations) (kind : DeclarationKind) (q : QName) :
    d.bare.contains kind q = d.contains kind q := by
  cases kind <;> exact Table.contains_mapValues _ _ _

variable {α : Type} {kind : DeclarationKind} {name : α → QName}

theorem declare_bare (f : File) (q : QName) (declaration : α) (table : Table QName (Located α)) :
    declare kind f.bare q declaration (table.mapValues Located.bare) =
      ((declare kind f q declaration table).1.mapValues Located.bare,
        (declare kind f q declaration table).2) := by
  rw [declare, declare, Table.find?_mapValues]
  cases table.find? q with
  | none => exact congrArg (·, []) (Table.insert_mapValues Located.bare table q ⟨f, declaration⟩)
  | some first => rfl

theorem declareAll_bare (f : File) (declarations : List α) (table : Table QName (Located α)) :
    declareAll kind f.bare name declarations (table.mapValues Located.bare) =
      ((declareAll kind f name declarations table).1.mapValues Located.bare,
        (declareAll kind f name declarations table).2) := by
  induction declarations generalizing table with
  | nil => rfl
  | cons d rest ih => rw [declareAll_cons, declareAll_cons, declare_bare, ih]

theorem addFile_bare (d : Declarations) (f : File) :
    d.bare.addFile f.bare = ((d.addFile f).1.bare, (d.addFile f).2) := by
  have types : declareAll .type f.bare NamedType.name f.bare.schema.types d.bare.types = _ :=
    declareAll_bare f f.schema.types d.types
  have elements : declareAll .element f.bare Element.name f.bare.schema.elements
      d.bare.elements = _ := declareAll_bare f f.schema.elements d.elements
  have groups : declareAll .group f.bare NamedGroup.name f.bare.schema.groups d.bare.groups = _ :=
    declareAll_bare f f.schema.groups d.groups
  have attributes : declareAll .attribute f.bare Attribute.name f.bare.schema.attributes
      d.bare.attributes = _ := declareAll_bare f f.schema.attributes d.attributes
  have attributeGroups : declareAll .attributeGroup f.bare AttributeGroup.name
      f.bare.schema.attributeGroups d.bare.attributeGroups = _ :=
    declareAll_bare f f.schema.attributeGroups d.attributeGroups
  unfold addFile
  rw [types, elements, groups, attributes, attributeGroups]
  rfl

theorem addFiles_bare (d : Declarations) (files : List File) :
    d.bare.addFiles (files.map File.bare) = ((d.addFiles files).1.bare, (d.addFiles files).2) := by
  induction files generalizing d with
  | nil => rfl
  | cons f rest ih => rw [List.map_cons, addFiles_cons, addFiles_cons, addFile_bare, ih]

end Declarations

namespace Linkage

variable {l : Linkage} {f : File}

/-- The linkage of such files. -/
def bare (l : Linkage) : Linkage :=
  { l with catalog := l.catalog.bare, declarations := l.declarations.bare }

theorem declares_bare (c : Catalog) (space : String) :
    c.bare.declares space = c.declares space := by
  rw [Catalog.declares_eq, Catalog.declares_eq]
  exact List.any_map

theorem resolve?_bare (l : Linkage) (kind : DeclarationKind) (f : File) (name : QName) :
    l.bare.resolve? kind f.bare name = l.resolve? kind f name :=
  resolve?_congr (l := l.bare) (m := l) (f := f.bare) (g := f) rfl
    (Declarations.contains_bare l.declarations) ⟨rfl, rfl, rfl⟩ kind name

theorem type?_bare (l : Linkage) (f : File) (name : QName) :
    l.bare.type? f.bare name = (l.type? f name).map Located.bare := by
  rw [type?, type?, resolve?_bare]
  cases l.resolve? .type f name with
  | none => rfl
  | some r => exact Table.find?_mapValues _ _ _

theorem group?_bare (l : Linkage) (f : File) (name : QName) :
    l.bare.group? f.bare name = (l.group? f name).map Located.bare := by
  rw [group?, group?, resolve?_bare]
  cases l.resolve? .group f name with
  | none => rfl
  | some r => exact Table.find?_mapValues _ _ _

theorem importProblems_bare (c : Catalog) (f : File) :
    importProblems c.bare f.bare = importProblems c f := by
  refine List.filterMap_congr fun i _ => ?_
  rw [Catalog.resolveImport_eq, Catalog.resolveImport_eq, declares_bare]
  rcases c.declares i.space with _ | _ <;> rfl

theorem follow_bare (l : Linkage) (t : Tally) (f : File) (r : Reference) :
    l.bare.follow t (f.bare, r) = l.follow t (f, r) := by
  have hunresolved : l.bare.unresolved f.bare r = l.unresolved f r := by
    rw [unresolved, unresolved, show l.bare.catalog = l.catalog.bare from rfl, declares_bare]
    rfl
  rw [follow, follow, resolve?_bare, hunresolved]
  rfl

theorem baseLoop?_bare (l : Linkage) : ∀ (steps : Nat) (chain : List QName)
    (located : Located NamedType),
    l.bare.baseLoop? steps chain located.bare = l.baseLoop? steps chain located
  | 0, _, _ => rfl
  | steps + 1, chain, located => by
      rw [baseLoop?, baseLoop?, show located.bare.declaration = located.declaration from rfl,
        show located.bare.file = located.file.bare from rfl]
      cases located.declaration.definition.base? with
      | none => rfl
      | some base =>
          dsimp only
          rw [type?_bare]
          cases l.type? located.file base with
          | none => rfl
          | some next =>
              rw [Option.map_some]
              dsimp only
              rw [baseLoop?_bare l steps]
              rfl

theorem typeCycles_bare (l : Linkage) : ∀ (known : List QName)
    (entries : Table QName (Located NamedType)),
    l.bare.typeCycles known (entries.mapValues Located.bare) = l.typeCycles known entries
  | _, [] => rfl
  | known, (name, located) :: rest => by
      have hlength : l.bare.declarations.types.length = l.declarations.types.length :=
        List.length_map _
      rw [Table.mapValues_cons, typeCycles, typeCycles, hlength, baseLoop?_bare]
      simp only [typeCycles_bare l _ rest]
      rfl

theorem groupLoops_bare (l : Linkage) : ∀ (steps : Nat) (path : List QName) (f : File)
    (group : ModelGroup), l.bare.groupLoops steps path f.bare group = l.groupLoops steps path f group
  | 0, _, _, _ => rfl
  | steps + 1, path, f, group => by
      rw [groupLoops, groupLoops]
      refine congrArg (List.any group.groupRefs) (funext fun name => ?_)
      rw [group?_bare]
      cases l.group? f name with
      | none => rfl
      | some target => exact congrArg (_ || ·) (groupLoops_bare l steps _ target.file _)

theorem groupCycles_bare (l : Linkage) : l.bare.groupCycles = l.groupCycles := by
  have hlength : l.bare.declarations.groups.length = l.declarations.groups.length :=
    List.length_map _
  rw [groupCycles, groupCycles, hlength]
  refine List.filterMap_map.trans (List.filterMap_congr fun entry _ => ?_)
  rw [Function.comp_apply]
  dsimp only
  rw [show entry.2.bare.file = entry.2.file.bare from rfl, groupLoops_bare]
  rfl

theorem cycles_bare (l : Linkage) : l.bare.cycles = l.cycles := by
  rw [cycles, cycles, groupCycles_bare]
  exact congrArg (· ++ _) (typeCycles_bare l [] _)

/-- Files that have lost their texts and prefixes are linked as before, with the same problems. -/
theorem ofCatalog_bare (c : Catalog) (resolution : Resolution) :
    ofCatalog c.bare resolution =
      ((ofCatalog c resolution).1.bare, (ofCatalog c resolution).2) := by
  have hdeclared : ({} : Declarations).addFiles c.bare.files =
      ((({} : Declarations).addFiles c.files).1.bare, (({} : Declarations).addFiles c.files).2) :=
    Declarations.addFiles_bare {} c.files
  have himports : c.bare.files.flatMap (importProblems c.bare) =
      c.files.flatMap (importProblems c) := by
    rw [Catalog.bare, List.flatMap_map]
    exact List.flatMap_congr fun f _ => importProblems_bare c f
  have hreferences : allReferences c.bare =
      (allReferences c).map fun use => (use.1.bare, use.2) := by
    rw [allReferences, allReferences, Catalog.bare, List.flatMap_map, List.map_flatMap]
    refine List.flatMap_congr fun f _ => ?_
    rw [List.map_map]
    rfl
  have hfollowed : ∀ t, (allReferences c.bare).foldl
      (⟨c.bare, resolution, (({} : Declarations).addFiles c.files).1.bare, []⟩ : Linkage).follow t =
        (allReferences c).foldl
          (⟨c, resolution, (({} : Declarations).addFiles c.files).1, []⟩ : Linkage).follow t := by
    intro t
    rw [hreferences, List.foldl_map]
    exact List.foldl_ext _ _ _ fun t use _ =>
      follow_bare ⟨c, resolution, (({} : Declarations).addFiles c.files).1, []⟩ t use.1 use.2
  unfold ofCatalog
  rw [hdeclared]
  dsimp only
  rw [himports, hfollowed]
  exact Prod.ext rfl (congrArg (_ ++ ·) (cycles_bare ⟨c, resolution, _, _⟩))

variable (c : Catalog) (resolution : Resolution)

/-- The linkage corresponds to that of the same files without texts and prefixes. -/
theorem corresponds_bare :
    (ofCatalog c resolution).1.Corresponds (ofCatalog c.bare resolution).1 where
  linked := isLinked_ofCatalog c resolution
  sees htwins r _ := by
    rw [ofCatalog_bare]
    exact resolve?_congr (l := (ofCatalog c resolution).1) (m := (ofCatalog c resolution).1.bare)
      rfl (fun kind q => (Declarations.contains_bare _ kind q).symm) htwins.toResembles r.kind r.name
  declares row hb q a ha := by
    obtain ⟨hf, -⟩ := located_of_find? row ha
    rw [ofCatalog_bare]
    refine ⟨a.bare, ?_, ⟨⟨rfl, rfl, rfl⟩, hf, List.mem_map_of_mem hf⟩, rfl⟩
    exact (congrArg (·.find? q) (Declarations.table_bare hb _)).trans
      ((Table.find?_mapValues _ _ _).trans (congrArg (Option.map Located.bare) ha))
  reuses q _ := by
    rw [ofCatalog_bare]
    rfl

end Linkage

namespace Conversion

/-- Unless names are written with prefixes, a file is converted as without its text and prefixes. -/
theorem convertFile_bare (c : Catalog) (resolution : Resolution) {options : Options}
    (hq : options.qualifiedPropertyNames = false) {f : File} (hf : f ∈ c.files) :
    convertFile ⟨(Linkage.ofCatalog c resolution).1, options, f⟩ =
      convertFile ⟨(Linkage.ofCatalog c.bare resolution).1, options, f.bare⟩ :=
  convertFile_same ⟨Linkage.corresponds_bare c resolution,
    ⟨⟨rfl, rfl, rfl⟩, hf, List.mem_map_of_mem hf⟩, rfl, rfl, rfl,
    fun hqualified => nomatch hq.symm.trans hqualified⟩ rfl rfl rfl

end Conversion

end Crosswalk
