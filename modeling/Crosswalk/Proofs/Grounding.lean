import Crosswalk.Proofs.Conversion.InPlace
import Crosswalk.Proofs.Definitions
import Crosswalk.Proofs.Steps

/-!
# Checks against the documents of a batch

Linking follows bases, and not the members of unions: a union may name itself among its members, and
then a check against it goes on with the same value forever. Nothing else can happen. Unless a
simple type offers itself, no steps with the same value in the documents of a batch go in a circle,
and no check of any value goes on forever. Groups come first, for their definitions lead nowhere;
then the complex types, which refer to groups; then the simple types, each after those that it
offers; then the elements, and with them everything else.
-/

namespace Crosswalk

open Json Conversion

namespace Batch

variable {options : Options} {files : List (String × String)} {batch : Batch} {file : File}

/-- No steps with the same value go on forever from a schema in the document of a file. -/
abbrev IsGrounded (options : Options) (files : List (String × String)) (file : File)
    (schema : Json) : Prop :=
  Document.Grounded (documentsOf options files) (documentOf options files file, schema)

/-- Nor from what a link in the document of a file leads to. -/
abbrev LeadsToGround (options : Options) (files : List (String × String)) (file : File)
    (link : String) : Prop :=
  Document.LinkGrounded (documentsOf options files) (documentOf options files file) link

theorem leadsToGround_linkText {source target : File}
    (hs : source ∈ (catalogOf options files).files) (ht : target ∈ (catalogOf options files).files)
    {sectionName name : String} {member : Json}
    (hm : (documentOf options files target).schema.member? sectionName name = some member)
    (hg : IsGrounded options files target member) :
    LeadsToGround options files source
      (linkText (contextOf options files source) target sectionName name) := by
  intro place hp
  rw [followed?_linkText hs ht hm] at hp
  exact Option.some.inj hp ▸ hg

/-! ### Definitions -/

theorem isGrounded_group {group : NamedGroup} {entry : String × Json}
    (ho : outcome (groupDefinition (contextOf options files file) group) = .ok entry) :
    IsGrounded options files file entry.2 :=
  Document.grounded_of_linksInPlace
    (((inPlace_groupDefinition group).outcome ho).mono fun _ => False.elim)

/-- A link to a group leads to the definition of a group, for no type takes its place. -/
theorem leadsToGround_group (h : Converts options files)
    (hf : file ∈ (catalogOf options files).files) {link : String}
    (hl : IsGroupLink (contextOf options files file) link) :
    LeadsToGround options files file link := by
  obtain ⟨scope, name, located, hfound, hr, rfl⟩ := hl
  obtain ⟨ht, hd⟩ := Linkage.located_of_group? hfound
  obtain ⟨types, groups, hc⟩ := isConverted h ht
  have hkey : Table.contains (Table.ofList groups) (groupKey located.declaration.name.name) := by
    rw [Table.contains_ofList, hc.groupKeys]
    exact List.mem_map.2 ⟨_, List.mem_filter.2 ⟨hd, hr⟩, rfl⟩
  obtain ⟨member, hmember⟩ := Option.isSome_iff_exists.1 hkey
  have hm : (documentOf options files located.file).schema.member? "definitions"
      (groupKey located.declaration.name.name) = some member := by
    rw [documentOf_eq, Document.member?_definitions, hc.definitions, Table.find?_ofList_append,
      hmember, Option.some_or]
  obtain ⟨group, -, ho⟩ :=
    exists_entry hc.groups.flip (Table.mem_ofList (Table.mem_of_find? hmember))
  exact leadsToGround_linkText hf ht hm (isGrounded_group ho)

theorem isGrounded_complex (h : Converts options files)
    (hf : file ∈ (catalogOf options files).files) {t : NamedType} {type : ComplexType}
    (ht : t.definition = .complex type) {entry : String × Json}
    (ho : outcome (typeDefinition (contextOf options files file) t) = .ok entry) :
    IsGrounded options files file entry.2 :=
  Document.grounded_of_linksInPlace (((inPlace_complexDefinition ht).outcome ho).mono fun _ hl =>
    leadsToGround_group h hf hl)

/-- A link to a type leads to the definition of a type of its name, or to that of a group. -/
theorem leadsToGround_type (h : Converts options files) {source target : File}
    (hs : source ∈ (catalogOf options files).files) (ht : target ∈ (catalogOf options files).files)
    {key : String} (hk : key ∈ target.schema.types.map (·.name.name))
    (hg : ∀ t ∈ target.schema.types, t.name.name = key → ∀ entry,
      outcome (typeDefinition (contextOf options files target) t) = .ok entry →
        IsGrounded options files target entry.2) :
    LeadsToGround options files source
      (linkText (contextOf options files source) target "definitions" key) := by
  obtain ⟨member, hm⟩ := exists_definition h ht (.inl hk)
  refine leadsToGround_linkText hs ht hm ?_
  obtain ⟨types, groups, hc⟩ := isConverted h ht
  rw [documentOf_eq, Document.member?_definitions, hc.definitions] at hm
  rcases List.mem_append.1 (Table.mem_ofList (Table.mem_of_find? hm)) with he | he
  · obtain ⟨t, hmem, ho⟩ := exists_entry hc.types.flip he
    have hname := ((yields_typeDefinition (reaches_true _) t).outcome ho).1
    exact hg t hmem hname.symm _ ho
  · obtain ⟨group, -, ho⟩ := exists_entry hc.groups.flip he
    exact isGrounded_group ho

/-- The definition of a type is grounded if those of the types that it offers are. The induction is
on offers. -/
theorem isGrounded_type (h : Converts options files)
    (wf : WellFounded fun b a => (linkageOf options files).Offering a b) (q : QName) :
    ∀ file ∈ (catalogOf options files).files, ∀ t ∈ file.schema.types, t.name = q → ∀ entry,
      outcome (typeDefinition (contextOf options files file) t) = .ok entry →
        IsGrounded options files file entry.2 := by
  induction q using wf.induction with
  | h q ih =>
      rintro file hf t ht rfl entry ho
      cases hdef : t.definition with
      | complex type => exact isGrounded_complex h hf hdef ho
      | simple type =>
          refine Document.grounded_of_linksInPlace
            ((inPlace_simpleDefinition hdef fun located hoffer => ?_).outcome ho)
          obtain ⟨scope, name, hl⟩ := hoffer.found
          obtain ⟨hlf, hd⟩ := Linkage.located_of_type? hl
          refine leadsToGround_type h hf hlf (List.mem_map.2 ⟨_, hd, rfl⟩)
            fun other hmem hname => ?_
          -- types of one file have names in one namespace
          have hlocal := (isProper_catalogOf.read located.file hlf).isLocal
          have hspace := (hlocal.types other hmem).trans (hlocal.types located.declaration hd).symm
          have hsame : other.name = located.declaration.name := by
            cases hother : other.name
            cases hdeclared : located.declaration.name
            simp_all
          exact ih located.declaration.name ⟨file, hf, t, ht, rfl, type, hdef, located, hoffer, rfl⟩
            located.file hlf other hmem hsame

/-! ### Documents -/

section

variable (h : Converts options files)
  (wf : WellFounded fun b a => (linkageOf options files).Offering a b)
include h wf

theorem typesReach_ground (hf : file ∈ (catalogOf options files).files) :
    TypesReach (contextOf options files file) (LeadsToGround options files file) where
  type hl := by
    obtain ⟨ht, hd⟩ := Linkage.located_of_type? hl
    exact leadsToGround_type h hf ht (List.mem_map.2 ⟨_, hd, rfl⟩) fun t hmem _ =>
      isGrounded_type h wf t.name _ ht t hmem rfl
  group _ hl := leadsToGround_group h hf hl

/-- A property of the root of a document leads to a type, or is an element whose type does. -/
theorem isGrounded_property (hf : file ∈ (catalogOf options files).files) {name : String}
    {member : Json}
    (hm : (documentOf options files file).schema.member? "properties" name = some member) :
    IsGrounded options files file member := by
  have reach := typesReach_ground h wf hf
  obtain ⟨types, groups, hc⟩ := isConverted h hf
  rw [documentOf_eq, Document.member?_properties] at hm
  rcases Document.mem_properties (Table.mem_of_find? hm) with he | ⟨type, ht, he⟩
  · obtain ⟨element, -, ho⟩ := exists_entry hc.elements.flip he
    exact Document.grounded_of_linksInPlace ((inPlace_elementProperty reach element).outcome ho)
  · obtain ⟨rfl, rfl⟩ := Prod.mk.inj he
    refine Document.grounded_of_linksInPlace (linksInPlace_link ?_)
    rw [hc.names, hc.typeKeys] at ht
    rw [← linkText_own]
    exact leadsToGround_type h hf hf ht fun t hmem _ => isGrounded_type h wf t.name _ hf t hmem rfl

theorem reaches_ground (hf : file ∈ (catalogOf options files).files) :
    Reaches (contextOf options files file) (LeadsToGround options files file) where
  type hl := isSchema_link ((typesReach_ground h wf hf).type hl)
  element hl := by
    obtain ⟨ht, hd⟩ := Linkage.located_of_element? hl
    obtain ⟨member, hm⟩ := exists_property h ht (List.mem_map.2 ⟨_, hd, rfl⟩)
    exact isSchema_link (leadsToGround_linkText hf ht hm (isGrounded_property h wf ht hm))
  group hl hr := isSchema_link ((typesReach_ground h wf hf).group _ ⟨_, _, _, hl, hr, rfl⟩)

theorem areSound_documentsOf : Document.AreSound (documentsOf options files) := by
  intro document hd
  obtain ⟨file, hf, rfl⟩ := List.mem_map.1 hd
  refine linksSatisfy_of_reaches h hf (reaches_ground h wf hf) fun name hn => ?_
  rw [← linkText_own]
  exact leadsToGround_type h hf hf hn fun t hmem _ => isGrounded_type h wf t.name _ hf t hmem rfl

end

/-! ### Types that offer themselves -/

/-- A type stands, in the document of its file, at the schema that it is converted to. -/
def Stands (options : Options) (files : List (String × String)) (q : QName) (place : Place) :
    Prop :=
  ∃ located, (linkageOf options files).declarations.types.find? q = some located ∧
    place.1 = documentOf options files located.file ∧
    outcome (typeDefinition (contextOf options files located.file) located.declaration) =
      .ok (q.name, place.2)

theorem Stands.unique {q : QName} {place other : Place} (h : Stands options files q place)
    (h' : Stands options files q other) : place = other := by
  obtain ⟨located, hl, hd, ho⟩ := h
  obtain ⟨located', hl', hd', ho'⟩ := h'
  obtain rfl := Option.some.inj (hl.symm.trans hl')
  rw [ho] at ho'
  exact Prod.ext (hd.trans hd'.symm) (Prod.mk.inj (Except.ok.inj ho')).2

theorem find?_type (h : Succeeds options files batch)
    (hf : file ∈ (catalogOf options files).files) {t : NamedType} (ht : t ∈ file.schema.types) :
    (linkageOf options files).declarations.types.find? t.name = some ⟨file, t⟩ :=
  Linkage.find?_of_ofCatalog .types h.links hf ht

section

variable (h : Succeeds options files batch)
  (hs : ∀ file ∈ (catalogOf options files).files, Separate (contextOf options files file))
include h hs

/-- Where no type has the key of a group, the definition of a type is where it stands. -/
theorem exists_stands (hf : file ∈ (catalogOf options files).files) {t : NamedType}
    (ht : t ∈ file.schema.types) : ∃ schema,
      Stands options files t.name (documentOf options files file, schema) ∧
      (documentOf options files file).schema.member? "definitions" t.name.name = some schema := by
  obtain ⟨schema, ho, hm⟩ := (h.isMember hf (hs file hf)).1 t ht
  exact ⟨schema, ⟨⟨file, t⟩, find?_type h hf ht, rfl, ho⟩, hm⟩

/-- A check goes on with the same value from a type to a type that it offers. -/
theorem Stands.step {a b : QName} (ho : (linkageOf options files).Offering a b) {place : Place}
    (hp : Stands options files a place) : ∃ next, Stands options files b next ∧
      Relation.TransGen (Document.StepInPlace (documentsOf options files)) place next := by
  obtain ⟨file, hf, t, ht, rfl, type, hdef, located, hoffer, rfl⟩ := ho
  obtain ⟨source, hsource, hdocument, houtcome⟩ := hp
  rw [find?_type h hf ht] at hsource
  obtain rfl := Option.some.inj hsource
  obtain ⟨scope, name, hl⟩ := hoffer.found
  obtain ⟨hlf, hd⟩ := Linkage.located_of_type? hl
  obtain ⟨schema, hnext, hm⟩ := exists_stands h hs hlf hd
  refine ⟨_, hnext, ?_⟩
  have hrefers := (refers_simpleDefinition hdef hoffer).outcome houtcome
  have hfollowed := followed?_linkText hf hlf hm
  rw [← hdocument] at hfollowed
  exact Document.transGen_of_refersInPlace hrefers hfollowed

theorem loops_of_offering {q : QName}
    (ho : Relation.TransGen (linkageOf options files).Offering q q) :
    Document.Loops (documentsOf options files) := by
  have walk : ∀ {a b : QName} {place : Place},
      Relation.TransGen (linkageOf options files).Offering a b → Stands options files a place →
      ∃ next, Stands options files b next ∧
        Relation.TransGen (Document.StepInPlace (documentsOf options files)) place next := by
    intro a b place hab hp
    induction hab with
    | single hab => exact hp.step h hs hab
    | tail _ hbc ih =>
        obtain ⟨middle, hmiddle, hfirst⟩ := ih
        obtain ⟨next, hnext, hrest⟩ := hmiddle.step h hs hbc
        exact ⟨next, hnext, hfirst.trans hrest⟩
  obtain ⟨-, ⟨file, hf, t, ht, rfl, -⟩, -⟩ := Relation.TransGen.head'_iff.1 ho
  obtain ⟨schema, hstands, hm⟩ := exists_stands h hs hf ht
  obtain ⟨next, hnext, hloop⟩ := walk ho hstands
  obtain rfl := hstands.unique hnext
  exact ⟨_, List.mem_map.2 ⟨file, hf, rfl⟩, _, schema, Json.pointed?_fragment _ hm, hloop⟩

end

/-! ### Batches that succeed -/

/-- If no simple type offers itself, no schema in the documents of a batch leads to itself in steps
at the same value, and no check of a value against a document goes on forever: it has a result that
does not depend on how often links are followed. If a type does, some schema leads to itself, unless
it was lost because there is a group under its key. -/
theorem checks_end (h : ofFiles options files = .ok batch) :
    ((∀ q, ¬ Relation.TransGen (linkageOf options files).Offering q q) →
      ¬ Document.Loops batch.documents ∧
      ∀ document ∈ batch.documents, ∀ value,
        Acc (fun next here => Document.Step batch.documents here next)
          ((document, document.schema), value) ∧
        ∀ p, Document.Settles batch.documents document p value document.schema) ∧
    ((∀ file ∈ (catalogOf options files).files, Separate (contextOf options files file)) →
      ∀ q, Relation.TransGen (linkageOf options files).Offering q q →
        Document.Loops batch.documents) := by
  have hs := succeeds_of_ofFiles h
  rw [hs.documents]
  refine ⟨fun hoffers => ?_, fun hseparate q ho => loops_of_offering hs hseparate ho⟩
  have wf := Linkage.wellFounded_offering (Linkage.isLinked_ofCatalog _ _) hoffers
  have sound := areSound_documentsOf hs.converts wf
  refine ⟨sound.not_loops, fun document hd value => ?_⟩
  have root : Document.IsSound (documentsOf options files) (document, document.schema) :=
    ⟨hd, sound document hd⟩
  exact ⟨root.ends sound value, Document.settles_of_acc (root.ends sound value)⟩

/-- A file with a union of two types of XML Schema itself. -/
def offeringNone : List (String × String) := [
  ("a.xsd", "<s:schema xmlns:s='http://www.w3.org/2001/XMLSchema'><s:simpleType name='u'>" ++
    "<s:union memberTypes='s:int s:string'/></s:simpleType></s:schema>")]

/-- A file with a union that is one of its own members. -/
def offeringItself : List (String × String) := [
  ("a.xsd", "<s:schema xmlns:s='http://www.w3.org/2001/XMLSchema'><s:simpleType name='u'>" ++
    "<s:union memberTypes='u s:string'/></s:simpleType></s:schema>")]

/-- The type is a union of types of XML Schema itself. -/
def isPlain : TypeDefinition → Bool
  | .simple (.union members) => members.all fun
    | .named name => name.isBuiltin
    | .inline _ => false
  | _ => false

/-- The type is a union, and its first member is found and has its name. -/
def isMemberOfItself (l : Linkage) (file : File) (t : NamedType) : Bool :=
  match t.definition with
  | .simple (.union (.named name :: _)) =>
    !name.isBuiltin && (l.type? file name).any fun located => located.declaration.name == t.name
  | _ => false

theorem not_offering_of_isPlain
    (h : ∀ file ∈ (catalogOf options files).files, ∀ t ∈ file.schema.types,
      isPlain t.definition = true) (a b : QName) : ¬ (linkageOf options files).Offering a b := by
  rintro ⟨file, hf, t, ht, -, type, hdef, located, hoffer, -⟩
  have hplain := h file hf t ht
  rw [hdef] at hplain
  cases hoffer with
  | named hm hb _ =>
      exact Bool.false_ne_true (hb.symm.trans (List.all_eq_true.1 hplain _ hm))
  | inline hm _ => exact Bool.false_ne_true (List.all_eq_true.1 hplain _ hm)
  | within _ => exact Bool.false_ne_true hplain
  | base _ _ _ _ => exact Bool.false_ne_true hplain

theorem offering_of_isMemberOfItself (hf : file ∈ (catalogOf options files).files) {t : NamedType}
    (ht : t ∈ file.schema.types)
    (h : isMemberOfItself (linkageOf options files) file t = true) :
    (linkageOf options files).Offering t.name t.name := by
  unfold isMemberOfItself at h
  split at h
  · next name members hdef =>
      rw [Bool.and_eq_true, Bool.not_eq_true', Option.any_eq_true] at h
      obtain ⟨hb, located, hl, hname⟩ := h
      exact ⟨file, hf, t, ht, rfl, _, hdef, located, .named List.mem_cons_self hb hl,
        beq_iff_eq.1 hname⟩
  · exact absurd h Bool.false_ne_true

/-- The parts of a file with a union of such members. -/
def unionParts (members : String) : List Xml.Event :=
  Xml.schemaParts (Xml.elementParts "simpleType" [("name", "u")]
    (Xml.elementParts "union" [("memberTypes", members)] []))

theorem collect_offeringNone : collect {} offeringNone =
    collectParts {} (fun _ => unionParts "s:int s:string") offeringNone :=
  collect_of_characters (Xml.toList_append_of String.toList_ofList String.toList_ofList)
    (by cbv)

theorem collect_offeringItself : collect {} offeringItself =
    collectParts {} (fun _ => unionParts "u s:string") offeringItself :=
  collect_of_characters (Xml.toList_append_of String.toList_ofList String.toList_ofList)
    (by cbv)

theorem isOk_offeringNone : (ofFiles {} offeringNone).isOk = true ∧
    ∀ file ∈ (catalogOf {} offeringNone).files, ∀ t ∈ file.schema.types,
      isPlain t.definition = true := by
  refine And.imp_left isOk_of_problemsOf ?_
  rw [problemsOf, linkageOf, catalogOf, collect_offeringNone]
  decide +kernel

theorem isOk_offeringItself : (ofFiles {} offeringItself).isOk = true ∧
    (∀ file ∈ (catalogOf {} offeringItself).files,
      Separate ⟨linkageOf {} offeringItself, {}, file⟩) ∧
    ∃ file ∈ (catalogOf {} offeringItself).files, ∃ t ∈ file.schema.types,
      isMemberOfItself (linkageOf {} offeringItself) file t = true := by
  refine And.imp_left isOk_of_problemsOf ?_
  rw [problemsOf, linkageOf, catalogOf, collect_offeringItself]
  decide +kernel

theorem checks_end_offering :
    (∃ batch, ofFiles {} offeringNone = .ok batch ∧ ¬ Document.Loops batch.documents) ∧
    ∃ batch, ofFiles {} offeringItself = .ok batch ∧ Document.Loops batch.documents := by
  obtain ⟨hnone, hplain⟩ := isOk_offeringNone
  obtain ⟨hitself, hseparate, file, hf, t, ht, hmember⟩ := isOk_offeringItself
  obtain ⟨batch, h⟩ := ok_of_isOk hnone
  obtain ⟨batch', h'⟩ := ok_of_isOk hitself
  refine ⟨⟨batch, h, ((checks_end h).1 fun q hloop => ?_).1⟩, batch', h',
    (checks_end h').2 hseparate _ (.single (offering_of_isMemberOfItself hf ht hmember))⟩
  obtain ⟨_, hoffer, -⟩ := Relation.TransGen.head'_iff.1 hloop
  exact not_offering_of_isPlain hplain _ _ hoffer

end Batch

end Crosswalk
