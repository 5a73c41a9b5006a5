import Crosswalk.Proofs.Batch
import Crosswalk.Proofs.Content.Upkeep

/-!
# The shapes of a batch

While a file is converted, shapes are built: they start empty, and take in what the conversion goes
through. Whatever was declared in the files of a batch, these shapes are sound, and what they lose
is known: the names of elements that were dropped for an attribute.
-/

namespace Crosswalk

open Conversion

/-- What a shape takes in of a part. What particles and model groups are inside of has bounds of its
own. -/
inductive Part.Offers : Part → Intake → Prop
  | complex {inheritance : Inheritance} {type : ComplexType} :
    Offers (.complex inheritance type) (.complex inheritance type)
  | content {inheritance : Inheritance} {type : ComplexType} :
    Offers (.complex inheritance type) (.content inheritance type.content)
  | base {inheritance : Inheritance} {type : ComplexType} {name : QName}
    (hb : type.content.base? = some name) :
    Offers (.complex inheritance type) (.base (type.content.inherited inheritance) name)
  | text {inheritance : Inheritance} {type : ComplexType} {name : QName} {derivation : Derivation}
    {facets : List Facet} (hc : type.content = .simple name derivation facets) :
    Offers (.complex inheritance type) (.text name derivation facets)
  | attributes {inheritance : Inheritance} {type : ComplexType} :
    Offers (.complex inheritance type) (.attributes type.attributes)
  | use {use : AttributeUse} : Offers (.use use) (.attributes [use])
  | attributeGroup {declaration : AttributeGroup} :
    Offers (.attributeGroup declaration) (.attributes declaration.attributes)
  | particle {outer : Bounds} {nested : Bool} {p : Particle} (ho : outer.IsOrdered) :
    Offers (.particle p) (.particle outer nested p)
  | term {bounds : Bounds} {nested : Bool} {p : Particle} (hb : bounds.IsOrdered) :
    Offers (.particle p) (.term bounds nested p.term)
  | elementRef {bounds : Bounds} {p : Particle} {reference : QName} (hb : bounds.IsOrdered)
    (ht : p.term = .elementRef reference) : Offers (.particle p) (.elementRef bounds reference)
  | groupRef {bounds : Bounds} {nested : Bool} {p : Particle} {reference : QName}
    (hb : bounds.IsOrdered) (ht : p.term = .groupRef reference) :
    Offers (.particle p) (.groupRef bounds nested reference)
  | group {bounds : Bounds} {nested : Bool} {group : ModelGroup} (hb : bounds.IsOrdered) :
    Offers (.modelGroup group) (.group bounds nested group)
  | particles {outer : Bounds} {nested : Bool} {group : ModelGroup} (ho : outer.IsOrdered) :
    Offers (.modelGroup group) (.particles outer nested group.particles)
  | choice {bounds : Bounds} {group : ModelGroup} (hb : bounds.IsOrdered) :
    Offers (.modelGroup group) (.choice bounds group.particles)

/-- The bounds in what a part offers are in order if those in the part are. -/
theorem Part.Offers.isOrdered {part : Part} {i : Intake} (h : part.Offers i)
    (hp : part.IsOrdered) : i.IsOrdered := by
  cases h with
  | complex => exact hp
  | content => exact ComplexType.isOrdered_iff.1 hp
  | particle ho => exact ⟨ho, hp⟩
  | term hb => exact ⟨hb, Particle.isOrdered_term hp⟩
  | elementRef hb ht => exact hb
  | groupRef hb ht => exact hb
  | group hb => exact ⟨hb, hp⟩
  | particles ho => exact ⟨ho, ModelGroup.isOrdered_iff.1 hp⟩
  | choice hb => exact ⟨hb, ModelGroup.isOrdered_iff.1 hp⟩
  | _ => exact True.intro

namespace Shape

/-- The shapes that are built while a file is converted, each with the names that it loses. They
start empty, and take in what is offered by the parts that the conversion goes through. -/
inductive IsBuilt (context : Context) : (String → Prop) → Shape → Prop
  | empty : IsBuilt context (fun _ => False) {}
  | collect {lost : String → Prop} {s t : Shape} {depth : ℕ} {site : Site} {part : Part}
    {i : Intake} {before after : ConversionState} (hs : IsBuilt context lost s)
    (hv : context.linkage.Visits context.file (site.scope, part)) (ho : part.Offers i)
    (hrun : run (i.collect context (expansions context depth) site s) before = (.ok t, after)) :
    IsBuilt context (fun name => lost name ∨ i.Drops context site.scope s name) t

/-- The shapes that are built are sound if all bounds are in order. -/
theorem IsBuilt.isSound {context : Context} {lost : String → Prop} {s : Shape}
    (h : IsBuilt context lost s) (hl : context.linkage.IsOrdered)
    (hf : context.file ∈ context.linkage.catalog.files) : s.IsSound lost := by
  induction h with
  | empty => exact isSound_empty _
  | @collect lost s t depth site part i before after _ hv ho hrun hs =>
      exact sound_collect hl depth site (ho.isOrdered (hl.visits hf hv)) hs before after t hrun

end Shape

namespace Batch

variable {options : Options} {files : List (String × String)}

/-- The reader has refused all files with bounds that are not in order. -/
theorem isOrdered_linkageOf : (linkageOf options files).IsOrdered :=
  ⟨Linkage.isLinked_ofCatalog _ _, fun file hf => (isProper_catalogOf.read file hf).isOrdered⟩

/-- Every shape that is built while a file of a batch is converted is sound, and so is every shape
that comes of a sound one: by an element, in either way to join it, and it is dropped exactly if an
attribute has its name; by an attribute; without an attribute; and by whatever else is taken in. No
array of occurrences asks for more of them than it admits. -/
theorem shapes_sound {file : File} (hf : file ∈ (catalogOf options files).files) :
    (∀ lost s, Shape.IsBuilt (contextOf options files file) lost s → s.IsSound lost) ∧
    ∀ (lost : String → Prop) (s : Shape), s.IsSound lost →
      (∀ (name : String) (slot : Slot), slot.IsSound →
        (s.addElement Slot.andThen name slot).1.IsSound lost ∧
        (s.addElement Slot.orElse name slot).1.IsSound lost ∧
        ∀ join, (s.addElement join name slot).2 = .dropped ↔ s.HasAttribute name) ∧
      (∀ (name : String) (item : Json) (required : Bool),
        ((s.addAttribute? name (.ofAttribute item required)).getD s).IsSound lost) ∧
      (∀ name, (s.removeAttribute name).IsSound lost) ∧
      (∀ (depth : ℕ) (site : Site) (i : Intake), i.IsOrdered →
        Yields (i.collect (contextOf options files file)
            (expansions (contextOf options files file) depth) site s)
          (Shape.IsSound fun name =>
            lost name ∨ i.Drops (contextOf options files file) site.scope s name)) ∧
      ∀ entry ∈ s.slots, entry.2.bounds.most.isRepeated = true →
        ∃ fields, entry.2.schema = .object fields ∧ ∀ least most : ℕ,
          ("minItems", Json.nat least) ∈ fields → ("maxItems", Json.nat most) ∈ fields →
            least ≤ most := by
  have hordered : (contextOf options files file).linkage.IsOrdered := isOrdered_linkageOf
  have hfile : (contextOf options files file).file ∈
      (contextOf options files file).linkage.catalog.files := hf
  refine ⟨fun lost s hb => hb.isSound hordered hfile, fun lost s hs => ⟨fun name slot hslot => ?_,
    hs.addAttribute, hs.removeAttribute, fun depth site i hi => ?_, fun entry he => ?_⟩⟩
  · exact ⟨hs.andThen name hslot, hs.orElse name hslot, fun join =>
      Shape.addElement_eq_dropped_iff hs.distinct join slot⟩
  · exact sound_collect hordered depth site hi hs
  · exact (hs.slots entry he).minItems_le_maxItems

/-- A file with a type that adds a choice to a base. An element of the choice has the name of an
attribute of the base. -/
def overshadowedFile : String × String :=
  ("o", "<s:schema xmlns:s='http://www.w3.org/2001/XMLSchema'><s:complexType name='b'>" ++
    "<s:attribute name='x'/></s:complexType><s:complexType name='t'><s:complexContent>" ++
    "<s:extension base='b'><s:choice><s:element name='x'/><s:element name='y'/></s:choice>" ++
    "</s:extension></s:complexContent></s:complexType></s:schema>")

/-- The parts of the file. -/
def overshadowedParts : List Xml.Event :=
  Xml.schemaParts (Xml.elementParts "complexType" [("name", "b")]
      (Xml.elementParts "attribute" [("name", "x")] []) ++
    Xml.elementParts "complexType" [("name", "t")] (Xml.elementParts "complexContent" []
      (Xml.elementParts "extension" [("base", "b")] (Xml.elementParts "choice" []
        (Xml.elementParts "element" [("name", "x")] [] ++
          Xml.elementParts "element" [("name", "y")] [])))))

set_option maxRecDepth 2000 in
theorem collect_overshadowed : collect {} [overshadowedFile] =
    collectParts {} (fun _ => overshadowedParts) [overshadowedFile] :=
  collect_of_characters (Xml.toList_append_of (Xml.toList_append_of (Xml.toList_append_of
    String.toList_ofList String.toList_ofList) String.toList_ofList) String.toList_ofList)
    (by cbv)

/-- Whether the first alternative of a choice requires a member of this name. -/
def requiresFirst (name : String) : Json → Bool
  | .object [(_, .array (.object [_, ("required", .array [.string first])] :: _))] => first == name
  | _ => false

theorem asksFor_of_requiresFirst {name : String} {choice : Json}
    (h : requiresFirst name choice = true) : choice.AsksFor name := by
  unfold requiresFirst at h
  split at h
  · next key other first rest =>
      obtain rfl := beq_iff_eq.1 h
      have hrequired : ("required", Json.array [.string first]) ∈
          [other, ("required", .array [.string first])] :=
        List.mem_cons_of_mem _ List.mem_cons_self
      exact .member List.mem_cons_self
        (.item List.mem_cons_self (.required hrequired List.mem_cons_self))
  · cases h

/-- The shape of a complex type that a file declares. -/
def shapeOf (context : Context) (type : ComplexType) : Except Problem Shape × ConversionState :=
  run ((Intake.complex .everything type).collect context (expansions context 1)
    ⟨context.file, ""⟩ {}) {}

/-- Whether the shape of a complex type has an attribute of this name, which a choice asks for. -/
def isOvershadowed (name : String) (context : Context) : TypeDefinition → Bool
  | .simple _ => false
  | .complex type =>
    match shapeOf context type with
    | (.ok s, _) => (s.attributes.map (·.1)).contains name &&
        s.choices.any (requiresFirst name)
    | _ => false

theorem isBuilt_of_isOvershadowed {name : String} {context : Context} {t : NamedType}
    (ht : t ∈ context.file.schema.types)
    (h : isOvershadowed name context t.definition = true) : ∃ lost s,
      Shape.IsBuilt context lost s ∧ s.HasAttribute name ∧
        ∃ choice ∈ s.choices, choice.AsksFor name := by
  unfold isOvershadowed at h
  split at h
  · cases h
  · next type htype =>
      have hvisits : context.linkage.Visits context.file
          (context.file, .complex .everything type) := ⟨_, .complex ht htype, .refl⟩
      split at h
      · next s after hrun =>
          rw [Bool.and_eq_true, List.contains_iff_mem, List.any_eq_true] at h
          exact ⟨_, s, .collect .empty hvisits .complex hrun, h.1, h.2.imp fun choice hc =>
            hc.imp_right asksFor_of_requiresFirst⟩
      · cases h

/-- Whether one of the files has such a type. -/
def anyOvershadowed (name : String) (options : Options) (catalog : Catalog) : Bool :=
  catalog.files.any fun file => file.schema.types.any fun t =>
    isOvershadowed name ⟨(Linkage.ofCatalog catalog options.resolution).1, options, file⟩
      t.definition

theorem isBuilt_of_anyOvershadowed {name : String}
    (h : anyOvershadowed name options (catalogOf options files) = true) :
    ∃ file ∈ (catalogOf options files).files, ∃ lost s,
      Shape.IsBuilt (contextOf options files file) lost s ∧ s.HasAttribute name ∧
        ∃ choice ∈ s.choices, choice.AsksFor name := by
  obtain ⟨file, hf, h⟩ := List.any_eq_true.1 h
  obtain ⟨t, ht, h⟩ := List.any_eq_true.1 h
  exact ⟨file, hf, isBuilt_of_isOvershadowed ht h⟩

theorem anyOvershadowed_overshadowedFile :
    anyOvershadowed "x" {} (catalogOf {} [overshadowedFile]) = true := by
  rw [catalogOf, collect_overshadowed]
  decide +kernel

/-- The name of the element is lost, for the choice asks for it, and only the attribute has it. -/
theorem shapes_sound_overshadowed : ∃ file ∈ (catalogOf {} [overshadowedFile]).files,
    ∃ lost s, Shape.IsBuilt (contextOf {} [overshadowedFile] file) lost s ∧ s.IsSound lost ∧
      s.HasAttribute "x" ∧ (∃ choice ∈ s.choices, choice.AsksFor "x") ∧ lost "x" := by
  obtain ⟨file, hf, lost, s, hbuilt, hattribute, choice, hc, hasks⟩ :=
    isBuilt_of_anyOvershadowed anyOvershadowed_overshadowedFile
  have hsound := (shapes_sound hf).1 lost s hbuilt
  exact ⟨file, hf, lost, s, hbuilt, hsound, hattribute, ⟨choice, hc, hasks⟩,
    (hsound.asked choice hc "x" hasks).resolve_left (hattribute.not_hasElement hsound.distinct)⟩

end Batch

end Crosswalk
