import Crosswalk.Proofs.Grounding
import Crosswalk.Proofs.Inlining.Content
import Crosswalk.Proofs.Steps

/-!
# References to model groups

A model group that several places refer to is written once, and a type that refers to it leaves the
members of the group to its definition. As long as nothing else in the type describes them, the
schema of the type accepts what it would accept with all groups inlined.

For that, bases and groups have to be expanded to the same, and the definition of a group has to
mirror what the group is inlined as. Both are true of expansions that nest as deep as these do if
they are true of what they expand in turn: the induction is on the depth without references, for a
definition is made on its own, and its expansions may nest as deep as those of any declaration.
-/

namespace Crosswalk

/-! ### Expansions with groups referred to or inlined -/

open Json Check

namespace Conversion

variable {Home : Type} {lead : Home → String → Option (Home × Json)} {follow : Follow Home}
  {l : Linkage} {o : Options} {isPart : File → Prop} {place : File → Home}

/-- The definition of a reused group was made, and stands where links to it lead. -/
def IsDefinedFor (lead : Home → String → Option (Home × Json)) (l : Linkage) (o : Options)
    (place : File → Home) (f : File) (located : Located NamedGroup) : Prop :=
  ∃ (shape : Shape) (t : ConversionState) (documentation : Option String),
    run (visiting .group located.file located.declaration.name
      (collectGroup ⟨l, o, located.file⟩ (allExpansions ⟨l, o, located.file⟩)
        ⟨located.file, "group " ++ located.declaration.name.name⟩ .once true {}
        located.declaration.group)) {} = (.ok shape, t) ∧
    lead (place f) (linkText ⟨l, o, f⟩ located.file "definitions"
        (groupKey located.declaration.name.name)) =
      some (place located.file,
        withKeywords (shape.schema false o.textProperty) (descriptionOf documentation))

/-- The documents of files, and how links in them are followed. -/
structure Serves (lead : Home → String → Option (Home × Json)) (follow : Follow Home) (l : Linkage)
    (o : Options) (isPart : File → Prop) (place : File → Home) : Prop where
  judges : ∀ {f : File}, isPart f → Judges lead follow (place f)
  unqualified : o.qualifiedPropertyNames = false
  alike : ∀ {f g : File}, isPart f → isPart g → ReadsAlike l o follow (place f) (place g) f g
  located : ∀ {scope : File} {name : QName} {located : Located NamedGroup},
    l.group? scope name = some located → isPart located.file
  defined : ∀ {f scope : File} {name : QName} {located : Located NamedGroup}, isPart f →
    l.group? scope name = some located → l.isReused located.declaration.name = true →
      IsDefinedFor lead l o place f located

variable (h : Serves lead follow l o isPart place)
include h

theorem Serves.reads {f g : File} (hf : isPart f) (hg : isPart g) {m : Nat}
    (hd : DefinesSame lead follow (place f) (place g) l o f (expansions ⟨l.inlined, o, g⟩ m)) :
    Reads lead follow (place f) (place g) l o f g (expansions ⟨l.inlined, o, g⟩ m) where
  judges := h.judges hf
  alike := h.alike hf hg
  unqualified := h.unqualified
  frames _ := frames_expansions (Linkage.isReused_inlined l) m
  defines := hd

omit h

mutual

/-- Bases and groups are expanded to the same, as long as what is known to come to a result nests
no deeper. -/
theorem Serves.expandsToSame (h : Serves lead follow l o isPart place) {f g : File}
    (hf : isPart f) (hg : isPart g) {p : Prop} : ∀ {n m : Nat}, (p → n ≤ m) →
      ExpandsToSame lead follow (place f) (place g) o p (expansions ⟨l, o, f⟩ n)
        (expansions ⟨l.inlined, o, g⟩ m)
  | 0, _, _ => ⟨fun _ _ _ _ _ _ _ _ _ => Agree.throw, fun _ _ _ _ _ _ _ _ _ => Agree.throw⟩
  | n + 1, 0, hn => by
      have unsure : ∀ {c : Conversion Shape} {q : Problem} {R : Shape → Shape → Prop},
          Agree Outside (Identical p) c (throw q) R := by
        rintro c q R s t a s' - - (⟨hp, -⟩ | ⟨b, t', hb⟩)
        · exact absurd (hn hp) (Nat.not_succ_le_zero n)
        · simp at hb
      exact ⟨fun _ _ _ _ _ _ _ _ _ => unsure, fun _ _ _ _ _ _ _ _ _ => unsure⟩
  | n + 1, m + 1, hn =>
    have reads := h.reads hf hg (h.definesSame hf hg m)
    have expands := h.expandsToSame hf hg (p := p) (n := n) (m := m)
      fun hp => Nat.le_of_succ_le_succ (hn hp)
    ⟨fun _ location location' inheritance located type _ _ hs =>
      mirrored_collectComplex reads expands located.file location location' inheritance hs type,
    fun _ location location' located bounds _ _ _ hs =>
      mirrored_collectGroup reads expands located.file location location' bounds hs
        located.declaration.group⟩

/-- The definition of a group mirrors what the group is inlined as. -/
theorem Serves.definesSame (h : Serves lead follow l o isPart place) {f g : File} (hf : isPart f)
    (hg : isPart g) : ∀ m : Nat, DefinesSame lead follow (place f) (place g) l o f
      (expansions ⟨l.inlined, o, g⟩ m)
  | 0, _, _, _, _, _, _, _, _, _, _, hown => by simp [expansions] at hown
  | m + 1, _, _, located, hl, hr, location, t, t', own, ht, hown => by
      obtain ⟨shape, u, documentation, hmade, hlead⟩ := h.defined hf hl hr
      obtain ⟨u', hmade⟩ := run_visiting_ok hmade
      have hpart := h.located hl
      have reads := h.reads hpart hg (h.definesSame hpart hg m)
      have expands := h.expandsToSame hpart hg (p := False) (m := m)
        (n := expansionDepth ⟨l, o, located.file⟩) False.elim
      have agree := mirrored_collectGroup reads expands located.file
        ("group " ++ located.declaration.name.name) location .once (.empty true)
        located.declaration.group
      obtain ⟨own', t'', hown', -, -, hm⟩ := agree _ t shape u' ⟨rfl, ht⟩ hmade
        (.inr ⟨own, t', hown⟩)
      obtain rfl : own = own' :=
        Except.ok.inj (Prod.mk.inj (hown.symm.trans hown')).1
      exact ⟨⟨place located.file, shape⟩, ⟨⟨_, documentation, rfl, hlead⟩, hm.plain rfl,
        hm.mirrors.nodup, hm.mirrors.made⟩, hm.mirrors⟩

end

/-- The definition of a complex type agrees with the schema that has all groups inlined. -/
theorem Serves.agree_typeDefinition (h : Serves lead follow l o isPart place) {f : File}
    (hf : isPart f) {t : NamedType} {type : ComplexType} (ht : t.definition = .complex type) :
    Agree Outside (Identical True) (typeDefinition ⟨l, o, f⟩ t) (typeDefinition ⟨l.inlined, o, f⟩ t)
      (fun entry inlined => inlined.1 = t.name.name ∧
        ItemAgrees lead follow (place f) (place f) entry.2 inlined.2) := by
  have judges := h.judges hf
  have reads := h.reads hf hf (h.definesSame hf hf (expansionDepth ⟨l, o, f⟩))
  have expands := h.expandsToSame hf hf (p := True) (n := expansionDepth ⟨l, o, f⟩) fun _ => le_rfl
  have shape := (mirrored_collectComplex reads expands f ("complexType " ++ t.name.name)
    ("complexType " ++ t.name.name) .everything Shape.mirrors_empty type).bind fun _ _ hs =>
      Agree.pure (hs.typeAgrees judges o.isClosed)
  unfold typeDefinition
  simp only [ht]
  exact (shape.visiting (enters_eq True Expandable.noConfusion)).bind fun _ _ hs =>
    Agree.pure ⟨rfl, hs.withKeywords judges.blind (areBeside_descriptionOf _)⟩

end Conversion

/-! ### Batches -/

open Json Check Conversion

namespace Batch

variable {options : Options} {files : List (String × String)} {batch : Batch}
  {follow : Follow Document}

section

variable (h : Succeeds options files batch)
  (hj : ∀ document ∈ documentsOf options files,
    Judges (Document.followed? (documentsOf options files)) follow document)
include h hj

omit h in
/-- Links to one member of a document are judged alike in all documents. -/
theorem acceptsSame_linkText {f g target : File} (hf : f ∈ (catalogOf options files).files)
    (hg : g ∈ (catalogOf options files).files) (ht : target ∈ (catalogOf options files).files)
    {sectionName name : String}
    (hm : ∃ member, (documentOf options files target).schema.member? sectionName name =
      some member) :
    AcceptsSame follow (documentOf options files f) (documentOf options files g)
      (linkTo (contextOf options files f) target sectionName name)
      (linkTo (contextOf options files g) target sectionName name) := by
  obtain ⟨member, hm⟩ := hm
  have judges := fun {file : File} (hfile : file ∈ (catalogOf options files).files) =>
    (hj _ (List.mem_map.2 ⟨file, hfile, rfl⟩)).leads (followed?_linkText hfile ht hm)
  exact (judges hf).trans (judges hg).symm

theorem readsAlike {f g : File} (hf : f ∈ (catalogOf options files).files)
    (hg : g ∈ (catalogOf options files).files) :
    ReadsAlike (linkageOf options files) options follow (documentOf options files f)
      (documentOf options files g) f g where
  blind := (hj _ (List.mem_map.2 ⟨f, hf, rfl⟩)).blind
  type hl := by
    obtain ⟨ht, hd⟩ := Linkage.located_of_type? hl
    exact acceptsSame_linkText hj hf hg ht
      (exists_definition h.converts ht (.inl (List.mem_map.2 ⟨_, hd, rfl⟩)))
  element hl := by
    obtain ⟨ht, hd⟩ := Linkage.located_of_element? hl
    exact acceptsSame_linkText hj hf hg ht
      (exists_property h.converts ht (List.mem_map.2 ⟨_, hd, rfl⟩))

omit hj in
/-- The definition of a reused group stands where the links to it lead. -/
theorem isDefinedFor {f scope : File} {name : QName} {located : Located NamedGroup}
    (hf : f ∈ (catalogOf options files).files)
    (hl : (linkageOf options files).group? scope name = some located)
    (hr : (linkageOf options files).isReused located.declaration.name = true) :
    IsDefinedFor (Document.followed? (documentsOf options files)) (linkageOf options files) options
      (documentOf options files) f located := by
  obtain ⟨ht, hd⟩ := Linkage.located_of_group? hl
  obtain ⟨schema, ho, hm⟩ := h.isMember_group ht (List.mem_filter.2 ⟨hd, hr⟩)
  obtain ⟨shape, t, hshape, hentry⟩ := run_bind_ok (Prod.ext ho rfl)
  have hschema := congrArg Prod.snd (run_pure_ok hentry)
  exact ⟨shape, t, located.declaration.documentation, hshape,
    (followed?_linkText hf ht hm).trans (congrArg (fun schema => some (_, schema)) hschema.symm)⟩

theorem serves (hq : options.qualifiedPropertyNames = false) :
    Serves (Document.followed? (documentsOf options files)) follow (linkageOf options files)
      options (· ∈ (catalogOf options files).files) (documentOf options files) where
  judges hf := hj _ (List.mem_map.2 ⟨_, hf, rfl⟩)
  unqualified := hq
  alike := readsAlike h hj
  located hl := (Linkage.located_of_group? hl).1
  defined := isDefinedFor h

end

/-- The schema of a complex type accepts what the schema accepts that has all model groups inlined
at the places of their references, if the members of groups are left to their definitions: nothing
else in the schema describes them, nor does a second definition. -/
theorem accepts_inlined (h : ofFiles options files = .ok batch)
    (hq : options.qualifiedPropertyNames = false)
    (hj : ∀ document ∈ batch.documents,
      Judges (Document.followed? batch.documents) follow document)
    {file : File} (hf : file ∈ (catalogOf options files).files) {t : NamedType}
    (ht : t ∈ file.schema.types) {type : ComplexType} (hc : t.definition = .complex type) :
    ∃ schema inlined,
      outcome (typeDefinition ⟨linkageOf options files, options, file⟩ t) =
        .ok (t.name.name, schema) ∧
      outcome (typeDefinition ⟨(linkageOf options files).inlined, options, file⟩ t) =
        .ok (t.name.name, inlined) ∧
      (Apart (Document.followed? batch.documents) (documentOf options files file) schema →
        ∀ value, Accepts follow (documentOf options files file) value schema ↔
          Accepts follow (documentOf options files file) value inlined) := by
  have hs := succeeds_of_ofFiles h
  rw [hs.documents] at hj ⊢
  obtain ⟨entries, -, -, types, -⟩ := hs.exists_entries hf
  obtain ⟨schema, -, ho⟩ := types t ht
  obtain ⟨⟨key, inlined⟩, t', hinlined, -, -, rfl, hitem⟩ :=
    (serves hs hj hq).agree_typeDefinition hf hc {} {} _ _ ⟨rfl, rfl⟩ (Prod.ext ho rfl)
      (.inl ⟨trivial, rfl⟩)
  exact ⟨schema, inlined, ho, congrArg Prod.fst hinlined, hitem.same⟩

/-- If no simple type offers itself, links followed as often as it takes are judged as the schemas
are that they lead to. -/
theorem judges_ultimately (h : ofFiles options files = .ok batch)
    (hoffers : ∀ q, ¬ Relation.TransGen (linkageOf options files).Offering q q) :
    ∀ document ∈ batch.documents, Judges (Document.followed? batch.documents)
      (Document.ultimately batch.documents) document := by
  have hs := succeeds_of_ofFiles h
  have wf := Linkage.wellFounded_offering (Linkage.isLinked_ofCatalog _ _) hoffers
  rw [hs.documents]
  exact fun document => Document.judges_ultimately (areSound_documentsOf hs.converts wf)

/-- A file with a group that two types refer to, one of which has another member. -/
def referringTwice : List (String × String) := [
  ("a.xsd", "<s:schema xmlns:s='http://www.w3.org/2001/XMLSchema'>" ++
    "<s:group name='g'><s:all><s:element name='a'/></s:all></s:group>" ++
    "<s:complexType name='t'><s:sequence><s:group ref='g'/><s:element name='b'/>" ++
    "</s:sequence></s:complexType>" ++
    "<s:complexType name='u'><s:group ref='g'/></s:complexType></s:schema>")]

/-- The parts of the file. -/
def referringTwiceParts : List Xml.Event :=
  Xml.schemaParts (Xml.elementParts "group" [("name", "g")]
      (Xml.elementParts "all" [] (Xml.elementParts "element" [("name", "a")] [])) ++
    Xml.elementParts "complexType" [("name", "t")] (Xml.elementParts "sequence" []
      (Xml.elementParts "group" [("ref", "g")] [] ++
        Xml.elementParts "element" [("name", "b")] [])) ++
    Xml.elementParts "complexType" [("name", "u")] (Xml.elementParts "group" [("ref", "g")] []))

set_option maxRecDepth 2000 in
theorem collect_referringTwice : collect {} referringTwice =
    collectParts {} (fun _ => referringTwiceParts) referringTwice :=
  collect_of_characters (Xml.toList_append_of (Xml.toList_append_of (Xml.toList_append_of
    (Xml.toList_append_of String.toList_ofList String.toList_ofList) String.toList_ofList)
    String.toList_ofList) String.toList_ofList) (by cbv)

/-- The type is complex, and its schema leaves the members of groups to their definitions. -/
def isComplexApart (options : Options) (catalog : Catalog) (linkage : Linkage) (file : File)
    (t : NamedType) : Bool :=
  match t.definition, outcome (typeDefinition ⟨linkage, options, file⟩ t) with
  | .complex _, .ok entry => apartWithin
      (Document.followed? (catalog.files.map fun f => (convert options linkage f).1)) 2
      (convert options linkage file).1 entry.2
  | _, _ => false

theorem apart_of_isComplexApart {file : File} {t : NamedType}
    (h : isComplexApart options (catalogOf options files) (linkageOf options files) file t =
      true) : ∃ type entry,
      t.definition = .complex type ∧
      outcome (typeDefinition ⟨linkageOf options files, options, file⟩ t) = .ok entry ∧
      Apart (Document.followed? (documentsOf options files)) (documentOf options files file)
        entry.2 := by
  unfold isComplexApart at h
  split at h
  · next type entry hc ho => exact ⟨type, entry, hc, ho, .of_apartWithin h⟩
  · exact absurd h Bool.false_ne_true

theorem not_offering_of_isComplexApart (h : ∀ file ∈ (catalogOf options files).files,
    ∀ t ∈ file.schema.types,
      isComplexApart options (catalogOf options files) (linkageOf options files) file t = true)
    (a b : QName) :
    ¬ (linkageOf options files).Offering a b := by
  rintro ⟨file, hf, t, ht, -, type, hdef, -⟩
  obtain ⟨_, _, hc, -⟩ := apart_of_isComplexApart (h file hf t ht)
  exact TypeDefinition.noConfusion (hc.symm.trans hdef)

theorem isOk_referringTwice : (ofFiles {} referringTwice).isOk = true ∧
    (∀ file ∈ (catalogOf {} referringTwice).files,
      (reusedGroups ⟨linkageOf {} referringTwice, {}, file⟩).length = 1) ∧
    ∀ file ∈ (catalogOf {} referringTwice).files, ∀ t ∈ file.schema.types,
      isComplexApart {} (catalogOf {} referringTwice) (linkageOf {} referringTwice) file t =
        true := by
  refine And.imp_left isOk_of_problemsOf ?_
  rw [problemsOf, linkageOf, catalogOf, collect_referringTwice]
  decide +kernel

theorem accepts_inlined_referringTwice : ∃ batch, ofFiles {} referringTwice = .ok batch ∧
    ∀ file ∈ (catalogOf {} referringTwice).files,
      (reusedGroups (contextOf {} referringTwice file)).length = 1 ∧
      ∀ t ∈ file.schema.types, ∃ schema inlined,
      outcome (typeDefinition ⟨linkageOf {} referringTwice, {}, file⟩ t) =
        .ok (t.name.name, schema) ∧
      outcome (typeDefinition ⟨(linkageOf {} referringTwice).inlined, {}, file⟩ t) =
        .ok (t.name.name, inlined) ∧
      ∀ value, Accepts (Document.ultimately batch.documents) (documentOf {} referringTwice file)
          value schema ↔
        Accepts (Document.ultimately batch.documents) (documentOf {} referringTwice file) value
          inlined := by
  obtain ⟨hok, hreused, hapart⟩ := isOk_referringTwice
  obtain ⟨batch, h⟩ := ok_of_isOk hok
  have hj := judges_ultimately h fun q hloop => by
    obtain ⟨_, hoffer, -⟩ := Relation.TransGen.head'_iff.1 hloop
    exact not_offering_of_isComplexApart hapart _ _ hoffer
  refine ⟨batch, h, fun file hf => ⟨hreused file hf, fun t ht => ?_⟩⟩
  obtain ⟨type, entry, hc, ho, ha⟩ := apart_of_isComplexApart (hapart file hf t ht)
  obtain ⟨schema, inlined, hschema, hinlined, hsame⟩ := accepts_inlined h rfl hj hf ht hc
  obtain rfl := Except.ok.inj (ho.symm.trans hschema)
  rw [(succeeds_of_ofFiles h).documents] at hsame ⊢
  exact ⟨schema, inlined, hschema, hinlined, hsame ha⟩

end Batch

end Crosswalk
