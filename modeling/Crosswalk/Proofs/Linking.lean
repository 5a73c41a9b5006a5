import Crosswalk.Proofs.Cycles
import Crosswalk.Proofs.Linkage.Links
import Crosswalk.Proofs.Linkage.Mentions

/-!
# What links in strict resolution

In strict resolution nothing fatal is reported if and only if the declarations of each kind have
different names, some file declares the namespace of every import, everything that is mentioned
anywhere denotes something of the kind that its place requires, and nothing loops back on itself. A
name of XML Schema itself denotes a built-in type or nothing, even if some file declares it. What
denotes nothing is reported once for each file, kind and name: by its namespace, if no file declares
that.
-/

namespace Crosswalk

/-- Some file declares a name of a kind. -/
def Catalog.HasDeclaration (catalog : Catalog) : DeclarationKind → QName → Prop
  | .type, name => ∃ file ∈ catalog.files, ∃ t ∈ file.schema.types, t.name = name
  | .element, name => ∃ file ∈ catalog.files, ∃ e ∈ file.schema.elements, e.name = name
  | .group, name => ∃ file ∈ catalog.files, ∃ g ∈ file.schema.groups, g.name = name
  | .attribute, name => ∃ file ∈ catalog.files, ∃ a ∈ file.schema.attributes, a.name = name
  | .attributeGroup, name =>
    ∃ file ∈ catalog.files, ∃ g ∈ file.schema.attributeGroups, g.name = name

/-- A name of a kind is that of a built-in type, or, outside the namespace of XML Schema, that of a
declaration. -/
def Catalog.Denotes (catalog : Catalog) (kind : DeclarationKind) (name : QName) : Prop :=
  (kind = .type ∧ name.space = QName.xsdSpace ∧ Datatype.isKnown name.name = true) ∨
    (name.space ≠ QName.xsdSpace ∧ catalog.HasDeclaration kind name)

/-- A namespace is that of XML Schema or that of a file. -/
def Catalog.HasSpace (catalog : Catalog) (space : String) : Prop :=
  space = QName.xsdSpace ∨ ∃ file ∈ catalog.files, file.schema.targetSpace = space

theorem Catalog.declares_iff {catalog : Catalog} {space : String} :
    catalog.declares space = true ↔ ∃ file ∈ catalog.files, file.schema.targetSpace = space := by
  simp [declares_eq, File.space]

namespace Linkage

open Declarations Relation

variable {catalog : Catalog} {l : Linkage}

theorem contains_iff_hasDeclaration (resolution : Resolution) (kind : DeclarationKind)
    (name : QName) : (ofCatalog catalog resolution).1.declarations.contains kind name = true ↔
      catalog.HasDeclaration kind name := by
  have hrow : ∀ {α : Type} (row : Row α), name ∈ row.names catalog.files ↔
      ∃ file ∈ catalog.files, ∃ d ∈ row.declared file.schema, row.name d = name := by
    simp [Row.names]
  cases kind with
  | type => exact (contains_ofCatalog_iff catalog resolution .types name).trans (hrow _)
  | element => exact (contains_ofCatalog_iff catalog resolution .elements name).trans (hrow _)
  | group => exact (contains_ofCatalog_iff catalog resolution .groups name).trans (hrow _)
  | «attribute» =>
      exact (contains_ofCatalog_iff catalog resolution .attributes name).trans (hrow _)
  | attributeGroup =>
      exact (contains_ofCatalog_iff catalog resolution .attributeGroups name).trans (hrow _)

/-- In strict resolution a name stands for something if and only if it denotes something. -/
theorem isSome_resolve?_strict_iff (kind : DeclarationKind) (file : File) (name : QName) :
    ((ofCatalog catalog .strict).1.resolve? kind file name).isSome = true ↔
      catalog.Denotes kind name := by
  have hbuiltin : name.isBuiltin = true ↔ name.space = QName.xsdSpace := beq_iff_eq
  unfold resolve? Catalog.Denotes
  by_cases hb : name.isBuiltin = true
  · have hspace := hbuiltin.1 hb
    rw [if_pos hb]
    by_cases hk : kind = .type ∧ Datatype.isKnown name.name = true
    · simp [hk, hspace]
    · rw [if_neg hk]
      simp only [Option.isSome_none, Bool.false_eq_true, false_iff]
      rintro (⟨hkind, -, hknown⟩ | ⟨hne, -⟩)
      · exact hk ⟨hkind, hknown⟩
      · exact hne hspace
  · have hspace : name.space ≠ QName.xsdSpace := fun h => hb (hbuiltin.2 h)
    rw [if_neg hb, ← contains_iff_hasDeclaration .strict kind name]
    by_cases hc : (ofCatalog catalog .strict).1.declarations.contains kind name = true
    · simp [hc, hspace]
    · rw [if_neg hc, if_pos (show (ofCatalog catalog .strict).1.resolution = .strict from rfl)]
      simp [hc, hspace]

/-- What a reference is reported under: its file, and what it refers to. -/
def reportKey (use : File × Reference) : String × DeclarationKind × QName :=
  (use.1.filename, use.2.kind, use.2.name)

/-- In strict resolution a reference that stands for something leaves problems and reports alone. -/
theorem follow_of_resolve? (hs : l.resolution = .strict) {t : Tally} {use : File × Reference}
    {r : Resolved} (hr : l.resolve? use.2.kind use.1 use.2.name = some r) :
    (l.follow t use).reported = t.reported ∧ (l.follow t use).problems = t.problems := by
  obtain ⟨file, reference⟩ := use
  unfold follow
  simp only [hr]
  rw [resolve?_strict hs hr]
  dsimp only
  rw [if_neg Bool.false_ne_true]
  split <;> exact ⟨rfl, rfl⟩

/-- Of the references that stand for nothing, the first one of each file, kind and name that was not
reported before is reported. -/
theorem exists_missing (hs : l.resolution = .strict) (uses : List (File × Reference)) :
    ∀ t : Tally, ∃ missing : List (File × Reference), missing.Sublist uses ∧
      (uses.foldl l.follow t).problems =
        t.problems ++ missing.map (fun use => l.unresolved use.1 use.2) ∧
      (missing.map reportKey).Nodup ∧ ∀ key, key ∈ missing.map reportKey ↔ key ∉ t.reported ∧
        ∃ use ∈ uses, reportKey use = key ∧ l.resolve? use.2.kind use.1 use.2.name = none := by
  induction uses with
  | nil => exact fun t => ⟨[], .slnil, (List.append_nil _).symm, List.nodup_nil, by simp⟩
  | cons use rest ih =>
      intro t
      cases hr : l.resolve? use.2.kind use.1 use.2.name with
      | some r =>
          obtain ⟨hreported, hproblems⟩ := follow_of_resolve? (t := t) hs hr
          obtain ⟨missing, hsub, heq, hn, hkeys⟩ := ih (l.follow t use)
          refine ⟨missing, hsub.cons _, hproblems ▸ heq, hn, fun key => ?_⟩
          rw [hkeys, hreported, List.exists_mem_cons_iff]
          simp [hr]
      | none =>
          have hfollow : l.follow t use = t.report use.1 use.2 (l.unresolved use.1 use.2) := by
            obtain ⟨file, reference⟩ := use
            unfold follow
            simp only [hr]
          obtain ⟨missing, hsub, heq, hn, hkeys⟩ := ih (l.follow t use)
          by_cases hold : reportKey use ∈ t.reported
          · have hsame : l.follow t use = t := hfollow.trans (if_pos hold)
            rw [hsame] at heq hkeys
            refine ⟨missing, hsub.cons _, by rw [List.foldl_cons, hsame, heq], hn, fun key => ?_⟩
            rw [hkeys, List.exists_mem_cons_iff]
            refine and_congr_right fun hkey => (or_iff_right ?_).symm
            rintro ⟨rfl, -⟩
            exact hkey hold
          · have hnew : l.follow t use = { t with
                reported := reportKey use :: t.reported
                problems := t.problems ++ [l.unresolved use.1 use.2] } :=
              hfollow.trans (if_neg hold)
            rw [hnew] at heq hkeys
            refine ⟨use :: missing, hsub.cons_cons _, ?_, ?_, fun key => ?_⟩
            · rw [List.foldl_cons, hnew, heq, List.append_assoc]
              rfl
            · rw [List.map_cons, List.nodup_cons, hkeys]
              exact ⟨fun h => h.1 List.mem_cons_self, hn⟩
            · rw [List.map_cons, List.mem_cons, hkeys, List.exists_mem_cons_iff, List.mem_cons, not_or]
              by_cases hkey : key = reportKey use
              · subst hkey
                simp [hold, hr]
              · simp [hkey, eq_comm (a := reportKey use)]

/-- The references that are reported are those that denote nothing. -/
theorem exists_unresolved (catalog : Catalog) : ∃ missing : List (File × Reference),
    missing.Sublist (allReferences catalog) ∧
    (ofCatalog catalog .strict).2 = (({} : Declarations).addFiles catalog.files).2 ++
      catalog.files.flatMap (importProblems catalog) ++
      missing.map (fun use => (ofCatalog catalog .strict).1.unresolved use.1 use.2) ++
      (ofCatalog catalog .strict).1.cycles ∧
    (missing.map reportKey).Nodup ∧
    ∀ filename kind name, (filename, kind, name) ∈ missing.map reportKey ↔
      ∃ file ∈ catalog.files, file.filename = filename ∧ file.schema.Mentions kind name ∧
        ¬ catalog.Denotes kind name := by
  obtain ⟨missing, hsub, heq, hn, hkeys⟩ := exists_missing
    (l := ⟨catalog, .strict, (({} : Declarations).addFiles catalog.files).1, []⟩) rfl
    (allReferences catalog) {}
  refine ⟨missing, hsub, ?_, hn, fun filename kind name => ?_⟩
  · rw [List.nil_append] at heq
    simp only [ofCatalog, heq]
    rfl
  · have hnone : ∀ use : File × Reference, Linkage.resolve?
        ⟨catalog, .strict, (({} : Declarations).addFiles catalog.files).1, []⟩
        use.2.kind use.1 use.2.name = none ↔ ¬ catalog.Denotes use.2.kind use.2.name := by
      intro use
      rw [← isSome_resolve?_strict_iff _ use.1, Bool.not_eq_true,
        Option.isSome_eq_false_iff, Option.isNone_iff_eq_none]
      rfl
    rw [hkeys]
    constructor
    · rintro ⟨-, ⟨file, r⟩, huse, heq, hr⟩
      obtain ⟨rfl, rfl, rfl⟩ : file.filename = filename ∧ r.kind = kind ∧ r.name = name := by
        simpa [reportKey] using heq
      obtain ⟨hf, hmem⟩ := mem_allReferences.1 huse
      exact ⟨file, hf, rfl, Schema.isReferred_iff_mentions.1 ⟨r, hmem, rfl, rfl⟩, (hnone _).1 hr⟩
    · rintro ⟨file, hf, rfl, hm, hd⟩
      obtain ⟨r, hmem, rfl, rfl⟩ := Schema.isReferred_iff_mentions.2 hm
      exact ⟨List.not_mem_nil, (file, r), mem_allReferences.2 ⟨hf, hmem⟩, rfl, (hnone _).2 hd⟩

/-- What denotes nothing is reported by its name, if its namespace is known. -/
theorem unresolved_of_hasSpace {resolution : Resolution} {file : File} {r : Reference} :
    (catalog.HasSpace r.name.space → (ofCatalog catalog resolution).1.unresolved file r =
      .unresolvedName file.filename r.location r.name) ∧
    (¬ catalog.HasSpace r.name.space → (ofCatalog catalog resolution).1.unresolved file r =
      .unresolvedNamespace file.filename r.name.space) := by
  have hknown : (r.name.isBuiltin ||
      (ofCatalog catalog resolution).1.catalog.declares r.name.space) = true ↔
      catalog.HasSpace r.name.space := by
    rw [Bool.or_eq_true]
    exact or_congr beq_iff_eq Catalog.declares_iff
  exact ⟨fun h => if_pos (hknown.2 h), fun h => if_neg fun hb => h (hknown.1 hb)⟩

theorem cycles_eq_nil_iff (catalog : Catalog) (resolution : Resolution) :
    (ofCatalog catalog resolution).1.cycles = [] ↔
      (∀ t, ¬ TransGen (ofCatalog catalog resolution).1.Derives t t) ∧
        ∀ g, ¬ TransGen (ofCatalog catalog resolution).1.Nests g g := by
  rw [cycles, List.append_eq_nil_iff,
    typeCycles_eq_nil_iff_acyclic (isIndexed_ofCatalog catalog resolution .types),
    groupCycles_eq_nil_iff_acyclic (isIndexed_ofCatalog catalog resolution .groups)]

/-- Files link in strict resolution if and only if nothing fatal is reported; they may share
filenames, for what a name stands for does not depend on the file that mentions it. -/
theorem links_strict_iff : Links catalog .strict ↔
    ∀ p ∈ (ofCatalog catalog .strict).2, p.isFatal = false := by
  refine ⟨fun h => h.problems_eq_nil ▸ List.forall_mem_nil _, fun hfine => ?_⟩
  have none_of : ∀ {problems : List Problem}, (∀ p ∈ problems, p.isFatal = true) →
      (∀ p ∈ problems, p.isFatal = false) → problems = [] := fun hfatal hfine =>
    List.eq_nil_iff_forall_not_mem.2 fun p hp =>
      Bool.false_ne_true ((hfine p hp).symm.trans (hfatal p hp))
  obtain ⟨missing, -, heq, -, hkeys⟩ := exists_unresolved catalog
  rw [heq] at hfine
  simp only [List.forall_mem_append] at hfine
  obtain ⟨⟨⟨hnames, himports⟩, hmissing⟩, hcycles⟩ := hfine
  refine ⟨addFiles_empty_eq_nil_iff.1 (none_of (fun _ => isFatal_of_mem_addFiles _) hnames),
    List.flatMap_eq_nil_iff.1 (none_of (fun p hp => ?_) himports), fun file hf r hr => ?_,
    none_of (fun _ => isFatal_of_mem_cycles) hcycles⟩
  · obtain ⟨file, -, hp⟩ := List.mem_flatMap.1 hp
    exact isFatal_of_mem_importProblems hp
  · rw [isSome_resolve?_strict_iff]
    by_contra hd
    obtain ⟨use, huse, -⟩ := List.mem_map.1 ((hkeys file.filename r.kind r.name).2
      ⟨file, hf, rfl, Schema.isReferred_iff_mentions.1 ⟨r, hr, rfl, rfl⟩, hd⟩)
    exact Bool.false_ne_true ((hmissing _ (List.mem_map_of_mem huse)).symm.trans
      (isFatal_unresolved use.2))

/-- In strict resolution nothing fatal is reported of a batch if and only if the declarations of
each kind have different names, every import is answered, everything that is mentioned denotes
something, and neither base types nor groups have a cycle. Every name that denotes nothing is
reported once for its file and kind. -/
theorem strict_exact (catalog : Catalog) :
    let l := (ofCatalog catalog .strict).1
    ((∀ p ∈ (ofCatalog catalog .strict).2, p.isFatal = false) ↔
      (∀ {α : Type} (row : Row α), row.IsBasic → (row.names catalog.files).Nodup) ∧
      (∀ file ∈ catalog.files, ∀ i ∈ file.schema.imports,
        (i.kind = .imported ∧ i.space = QName.xsdSpace) ∨
          ∃ other ∈ catalog.files, other.schema.targetSpace = i.space) ∧
      (∀ file ∈ catalog.files, ∀ kind name, file.schema.Mentions kind name →
        catalog.Denotes kind name) ∧
      (∀ t, ¬ TransGen l.Derives t t) ∧ ∀ g, ¬ TransGen l.Nests g g) ∧
    ∃ missing : List (File × Reference), missing.Sublist (allReferences catalog) ∧
      (ofCatalog catalog .strict).2 = (({} : Declarations).addFiles catalog.files).2 ++
        catalog.files.flatMap (importProblems catalog) ++
        missing.map (fun use => l.unresolved use.1 use.2) ++ l.cycles ∧
      (missing.map fun use => (use.1.filename, use.2.kind, use.2.name)).Nodup ∧
      (∀ filename kind name,
        (filename, kind, name) ∈
            missing.map (fun use => (use.1.filename, use.2.kind, use.2.name)) ↔
          ∃ file ∈ catalog.files, file.filename = filename ∧ file.schema.Mentions kind name ∧
            ¬ catalog.Denotes kind name) ∧
      ∀ use ∈ missing,
        (catalog.HasSpace use.2.name.space → l.unresolved use.1 use.2 =
          .unresolvedName use.1.filename use.2.location use.2.name) ∧
        (¬ catalog.HasSpace use.2.name.space → l.unresolved use.1 use.2 =
          .unresolvedNamespace use.1.filename use.2.name.space) := by
  intro l
  obtain ⟨missing, hsub, heq, hn, hkeys⟩ := exists_unresolved catalog
  refine ⟨?_, missing, hsub, heq, hn, hkeys, fun _ _ => unresolved_of_hasSpace⟩
  rw [← links_strict_iff, ← cycles_eq_nil_iff]
  simp only [← Catalog.declares_iff, ← importProblems_eq_nil_iff]
  constructor
  · intro h
    refine ⟨h.names, h.imports, fun file hf kind name hm => ?_, h.cycles⟩
    obtain ⟨r, hr, rfl, rfl⟩ := Schema.isReferred_iff_mentions.2 hm
    exact (isSome_resolve?_strict_iff _ _ _).1 (h.references file hf r hr)
  · rintro ⟨hnames, himports, hmentions, hcycles⟩
    refine ⟨hnames, himports, fun file hf r hr => ?_, hcycles⟩
    exact (isSome_resolve?_strict_iff _ _ _).2
      (hmentions file hf r.kind r.name (Schema.isReferred_iff_mentions.1 ⟨r, hr, rfl, rfl⟩))

/-- A file whose own namespace is that of XML Schema: it declares a type in it, and an element of
that type. -/
def xsdDeclaring : Catalog where
  files := [{
    filename := "X.xsd"
    identifier := "X.json"
    text :=
      "<xs:schema xmlns:xs=\"http://www.w3.org/2001/XMLSchema\"" ++
      " targetNamespace=\"http://www.w3.org/2001/XMLSchema\">" ++
      "<xs:simpleType name=\"foo\"><xs:restriction base=\"xs:string\"/></xs:simpleType>" ++
      "<xs:element name=\"e\" type=\"xs:foo\"/></xs:schema>"
    schema := {
      targetSpace := QName.xsdSpace
      elementForm := .unqualified
      attributeForm := .unqualified
      prefixes := [("xs", QName.xsdSpace)]
      imports := []
      documentation := none
      types := [⟨.xsd "foo", .simple (.restriction (.named (.xsd "string")) []), none⟩]
      elements := [⟨.xsd "e", true, .named (.xsd "foo"), false, none, none, none⟩]
      groups := []
      attributes := []
      attributeGroups := [] } }]

/-- All that is mentioned there is a built-in type or declared, yet linking fails: a name of XML
Schema itself stands for no declaration. -/
theorem strict_xsdDeclaring :
    (∀ {α : Type} (row : Row α), row.IsBasic → (row.names xsdDeclaring.files).Nodup) ∧
    (∀ file ∈ xsdDeclaring.files, file.schema.imports = []) ∧
    (∀ file ∈ xsdDeclaring.files, ∀ kind name, file.schema.Mentions kind name →
      (kind = .type ∧ name.space = QName.xsdSpace ∧ Datatype.isKnown name.name = true) ∨
        xsdDeclaring.HasDeclaration kind name) ∧
    (∀ t, ¬ TransGen (ofCatalog xsdDeclaring .strict).1.Derives t t) ∧
    (∀ g, ¬ TransGen (ofCatalog xsdDeclaring .strict).1.Nests g g) ∧
    ∃ p ∈ (ofCatalog xsdDeclaring .strict).2, p.isFatal = true := by
  have hcycles := (cycles_eq_nil_iff xsdDeclaring .strict).1 (by decide +kernel)
  refine ⟨fun row hrow => ?_, by decide, List.forall_mem_singleton.2 fun kind name hm => ?_,
    hcycles.1, hcycles.2, by decide +kernel⟩
  · cases hrow <;> decide
  · obtain ⟨r, hr, rfl, rfl⟩ := Schema.isReferred_iff_mentions.2 hm
    have hrefs : r ∈ [⟨.type, .xsd "string", "type foo"⟩, ⟨.type, .xsd "foo", "element e"⟩] := hr
    rcases List.mem_cons.1 hrefs with rfl | hrefs
    · exact .inl ⟨rfl, rfl, by decide⟩
    · obtain rfl := List.mem_singleton.1 hrefs
      exact .inr ⟨_, List.mem_cons_self, _, List.mem_cons_self, rfl⟩

end Linkage

end Crosswalk
