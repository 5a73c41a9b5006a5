import Crosswalk.Proofs.Conversion.Names
import Crosswalk.Proofs.Inlining

/-!
# The names in a batch

If names are to be qualified, the prefix in a name is that of the file that declares it. Only if
that file binds none, the file whose document is made may bind one: then a declaration has one name
in its own document and another one there. So the names are the same in all documents if and only if
every file binds a prefix of its own to whatever namespace its declarations are written with
anywhere. What a type lists of a model group that it refers to is then what the definition of the
group has.
-/

namespace Crosswalk

open Json Conversion

namespace Label

variable {files : List File} {scope : File} {label : Label}

/-- If any file binds a prefix to the namespace of a name that is qualified, so does the file that
declares it. -/
def IsPrefixedAtHome (files : List File) (scope : File) (label : Label) : Prop :=
  label.qualified = true → label.name.space ≠ "" → ∀ other ∈ files,
    (other.schema.prefixFor? label.name.space).isSome = true →
      (scope.schema.prefixFor? label.name.space).isSome = true

instance (files : List File) (scope : File) (label : Label) :
    Decidable (label.IsPrefixedAtHome files scope) := by
  unfold IsPrefixedAtHome
  infer_instance

/-- The property has one name in all documents, if and only if the prefix in it, if it has any, is
one of the file that declares it. -/
theorem property_eq_iff (l : Linkage) (o : Options) (hscope : scope ∈ files) :
    (∀ f ∈ files, ∀ g ∈ files, label.property ⟨l, o, f⟩ scope = label.property ⟨l, o, g⟩ scope) ↔
      (o.qualifiedPropertyNames = true → label.IsPrefixedAtHome files scope) := by
  constructor
  · intro h ho hq hspace other hother hbound
    by_contra hunbound
    have heq := h other hother scope hscope
    rw [Option.not_isSome_iff_eq_none] at hunbound
    obtain ⟨p, hp⟩ := Option.isSome_iff_exists.1 hbound
    simp [property, propertyName, ho, hq, hspace, hunbound, hp] at heq
  · intro h f hf g hg
    unfold property propertyName
    dsimp only
    split
    · next hcond =>
        simp only [Bool.and_eq_true, bne_iff_ne] at hcond
        obtain ⟨⟨ho, hq⟩, hspace⟩ := hcond
        have home := h ho hq hspace
        cases hp : scope.schema.prefixFor? label.name.space with
        | some p => rfl
        | none =>
            have unbound : ∀ other ∈ files, other.schema.prefixFor? label.name.space = none :=
              fun other hother => Option.not_isSome_iff_eq_none.1 fun hsome => by
                simpa [hp] using home other hother hsome
            rw [unbound f hf, unbound g hg]
    · rfl

end Label

namespace Batch

variable {options : Options} {files : List (String × String)} {batch : Batch}

/-- If names are to be qualified, every declaration of the batch has a prefix of its own file or
none. -/
def ArePrefixedAtHome (options : Options) (files : List (String × String)) : Prop :=
  options.qualifiedPropertyNames = true → ∀ scope ∈ (catalogOf options files).files,
    ∀ label ∈ scope.schema.labels, label.IsPrefixedAtHome (catalogOf options files).files scope

instance (options : Options) (files : List (String × String)) :
    Decidable (ArePrefixedAtHome options files) := by
  unfold ArePrefixedAtHome
  infer_instance

/-- In the document of a file, a reference to a model group has a link to the definition of the
group, and lists the names that the definition has. -/
def ListsDefinition (options : Options) (files : List (String × String)) (file scope : File)
    (reference : QName) (located : Located NamedGroup) : Prop :=
  ∃ (definition : Shape) (documentation : Option String),
    Document.followed? (documentsOf options files) (documentOf options files file)
        (linkText (contextOf options files file) located.file "definitions"
          (groupKey located.declaration.name.name)) =
      some (documentOf options files located.file,
        withKeywords (definition.schema false options.textProperty)
          (descriptionOf documentation)) ∧
    ∀ (n : Nat) (location : String) (shape : Shape),
      Yields (collectGroupRef (contextOf options files file)
          (expansions (contextOf options files file) n) ⟨scope, location⟩ reference .once false
          shape)
        fun result => ∃ members : Shape, members.names = definition.names ∧
          result = shape.addReference members (linkTo (contextOf options files file) located.file
            "definitions" (groupKey located.declaration.name.name))

theorem namesAlike (hp : ArePrefixedAtHome options files) {f g : File}
    (hf : f ∈ (catalogOf options files).files) (hg : g ∈ (catalogOf options files).files) :
    NamesAlike (contextOf options files f) (contextOf options files g) where
  linkage := rfl
  linked := Linkage.isLinked_ofCatalog _ _
  property scope hscope label hl :=
    (label.property_eq_iff (linkageOf options files) options hscope).2
      (fun ho => hp ho scope hscope label hl) f hf g hg

theorem Succeeds.listsDefinition (h : Succeeds options files batch)
    (hp : ArePrefixedAtHome options files) {file scope : File}
    (hf : file ∈ (catalogOf options files).files) {reference : QName} {located : Located NamedGroup}
    (hl : (linkageOf options files).group? scope reference = some located)
    (hr : (linkageOf options files).isReused located.declaration.name = true) :
    ListsDefinition options files file scope reference located := by
  obtain ⟨hhome, hgroup⟩ := Linkage.located_of_group? hl
  obtain ⟨definition, t, documentation, hmade, hlead⟩ := isDefinedFor h hf hl hr
  refine ⟨definition, documentation, hlead, fun n location shape => ?_⟩
  obtain ⟨u, hmade⟩ := run_visiting_ok hmade
  have alike := (expandAlike (namesAlike hp hhome hf)
    (expansionDepth (contextOf options files located.file) + 1) n).group
    ⟨located.file, "group " ++ located.declaration.name.name⟩ ⟨scope, location⟩ located .once true
    hhome (Schema.labels_of_group hgroup) (s := {}) rfl
  unfold collectGroupRef
  refine .bind (P := (located = ·)) (.found fun found hfound =>
    Option.some.inj (hl.symm.trans hfound)) ?_
  rintro _ rfl
  have hr : (contextOf options files file).linkage.isReused located.declaration.name = true := hr
  dsimp only
  rw [if_pos (by simpa using hr)]
  refine .visiting (.bind (P := fun members => members.names = definition.names) ?_
    fun members hm => .pure ⟨members, hm, rfl⟩)
  exact fun s t' members hmembers => (alike _ _ _ _ _ _ hmade hmembers).names.symm

/-- Names are to be qualified. -/
def qualifying : Options := { qualifiedPropertyNames := true }

/-- A file that binds a prefix to its namespace and declares an element in it. -/
def prefixedFile : String × String :=
  ("u", "<s:schema xmlns:s='http://www.w3.org/2001/XMLSchema' xmlns:u='u' targetNamespace='u'>" ++
    "<s:element name='e'/></s:schema>")

/-- The parts of the file. -/
def prefixedParts : List Xml.Event :=
  .start ⟨"s", "schema"⟩ [(⟨"xmlns", "s"⟩, QName.xsdSpace), (⟨"xmlns", "u"⟩, "u"),
      (⟨"", "targetNamespace"⟩, "u")] ::
    (Xml.elementParts "element" [("name", "e")] [] ++ [.stop ⟨"s", "schema"⟩])

theorem collect_prefixed : collect qualifying [prefixedFile] =
    collectParts qualifying (fun _ => prefixedParts) [prefixedFile] :=
  collect_of_characters (Xml.toList_append_of String.toList_ofList String.toList_ofList)
    (by cbv)

theorem isOk_prefixed : (ofFiles qualifying [prefixedFile]).isOk = true ∧
    ArePrefixedAtHome qualifying [prefixedFile] ∧
    (catalogOf qualifying [prefixedFile]).files.map (fun file => file.schema.labels) =
      [[⟨⟨"u", "e"⟩, true⟩]] := by
  refine And.imp_left isOk_of_problemsOf ?_
  rw [problemsOf, linkageOf, ArePrefixedAtHome, catalogOf, collect_prefixed]
  decide +kernel

end Batch

end Crosswalk
