import Crosswalk.Proofs.Schema
import Crosswalk.Proofs.Schema.Closure

/-!
# Properties of what is read

A property of the parts of a schema is hereditary if whatever is put together from parts that have
it has it as well. The reader sees to two things when it puts parts together, and these can be taken
for granted: a union has members, and the bounds of a particle are in order. So whatever was read
has every hereditary property, in all of its declarations.
-/

namespace Crosswalk

/-- No more occurrences are asked for than are admitted. -/
def Bounds.IsOrdered (b : Bounds) : Prop := .bounded b.least ≤ b.most

/-- A property of bases, attribute uses, types of elements, content and particles that each of them
has if the parts of it do. -/
structure Hereditary where
  base : SimpleBase → Prop
  use : AttributeUse → Prop
  type : ElementType → Prop
  content : Content → Prop
  particle : Particle → Prop
  base_named (name : QName) : base (.named name)
  base_restriction {b : SimpleBase} (facets : List Facet) :
    base b → base (.inline (.restriction b facets))
  base_list {b : SimpleBase} : base b → base (.inline (.list b))
  base_union {members : List SimpleBase} :
    members ≠ [] → (∀ b ∈ members, base b) → base (.inline (.union members))
  use_declared {a : Attribute} (u : Use) :
    (∀ b, a.type = some b → base b) → use (.declared a u)
  use_reference (name : QName) (u : Use) (default fixed : Option String) :
    use (.reference name u default fixed)
  use_group (name : QName) : use (.group name)
  type_named (name : QName) : type (.named name)
  type_simple {t : SimpleType} : base (.inline t) → type (.simple t)
  type_complex {t : ComplexType} :
    content t.content → (∀ u ∈ t.attributes, use u) → type (.complex t)
  type_any : type .any
  content_empty : content .empty
  content_particle {p : Particle} : particle p → content (.particle p)
  content_extension (name : QName) {p? : Option Particle} :
    (∀ p, p? = some p → particle p) → content (.extension name p?)
  content_restriction (name : QName) {p? : Option Particle} :
    (∀ p, p? = some p → particle p) → content (.restriction name p?)
  content_simple (name : QName) (derivation : Derivation) (facets : List Facet) :
    content (.simple name derivation facets)
  particle_element {least : Count} {most : Limit} {e : Element} :
    Bounds.IsOrdered ⟨least, most⟩ → type e.type → particle ⟨least, most, .element e⟩
  particle_elementRef {least : Count} {most : Limit} (name : QName) :
    Bounds.IsOrdered ⟨least, most⟩ → particle ⟨least, most, .elementRef name⟩
  particle_group {least : Count} {most : Limit} (compositor : Compositor)
    {particles : List Particle} : Bounds.IsOrdered ⟨least, most⟩ →
      (∀ p ∈ particles, particle p) → particle ⟨least, most, .group ⟨compositor, particles⟩⟩
  particle_groupRef {least : Count} {most : Limit} (name : QName) :
    Bounds.IsOrdered ⟨least, most⟩ → particle ⟨least, most, .groupRef name⟩
  particle_any {least : Count} {most : Limit} :
    Bounds.IsOrdered ⟨least, most⟩ → particle ⟨least, most, .any⟩

namespace Hereditary

variable (H : Hereditary)

/-- The type of an attribute has the property, if there is one. -/
def attributeType (a : Attribute) : Prop := ∀ b, a.type = some b → H.base b

/-- The content and the attributes of a complex type have the property. -/
def complex (t : ComplexType) : Prop := H.content t.content ∧ ∀ u ∈ t.attributes, H.use u

/-- A type has the property. -/
def definition : TypeDefinition → Prop
  | .simple t => H.base (.inline t)
  | .complex t => H.complex t

/-- The declarations of a schema have the property. -/
structure Holds (schema : Schema) : Prop where
  types : ∀ t ∈ schema.types, H.definition t.definition
  elements : ∀ e ∈ schema.elements, H.type e.type
  groups : ∀ g ∈ schema.groups, ∀ p ∈ g.group.particles, H.particle p
  attributes : ∀ a ∈ schema.attributes, H.attributeType a
  attributeGroups : ∀ g ∈ schema.attributeGroups, ∀ u ∈ g.attributes, H.use u

/-- Other content and further attributes leave those that a type has as they are. -/
theorem complex_withUses {type : ComplexType} (h : ∀ u ∈ type.attributes, H.use u)
    {content : Content} (hc : H.content content) {uses : List AttributeUse × Bool}
    (hu : ∀ u ∈ uses.1, H.use u) : H.complex { Schema.withUses type uses with content } :=
  ⟨hc, List.forall_mem_append.2 ⟨h, hu⟩⟩

end Hereditary

namespace Schema

open Reading

variable (H : Hereditary) (setting : Setting) (location : String)

/-! ### Simple types -/

mutual

theorem gives_simpleType : ∀ constructs : List Construct,
    Gives (simpleType setting location constructs) fun type => H.base (.inline type)
  | [] => by
      unfold simpleType
      exact gives_malformed
  | c :: rest => by
      unfold simpleType
      refine gives_ite ?_ (gives_ite ?_ (gives_ite ?_ ?_))
      · exact gives_bind (gives_simpleBase "base" c) fun base hb =>
          gives_bind_any fun facets => gives_pure (H.base_restriction facets hb)
      · exact gives_bind (gives_simpleBase "itemType" c) fun item hi =>
          gives_pure (H.base_list hi)
      · refine gives_bind_any fun names => gives_bind (gives_inlineMembers c) fun inline hi => ?_
        dsimp only
        split
        · exact gives_malformed
        · next hempty =>
            refine gives_pure (H.base_union (fun hnil => hempty ?_) ?_)
            · rw [hnil]
              rfl
            · refine List.forall_mem_append.2 ⟨fun m hm => ?_, hi⟩
              obtain ⟨name, -, rfl⟩ := List.mem_map.1 hm
              exact H.base_named name
      · exact gives_bind_any fun _ => gives_simpleType rest

theorem gives_simpleBase (naming : String) : ∀ c : Construct,
    Gives (simpleBase setting location naming c) H.base
  | .mk name attributes bindings documentation children => by
      unfold simpleBase
      refine gives_bind_any fun name? => ?_
      split
      · exact gives_pure (H.base_named _)
      · refine gives_bind (gives_nestedSimple children) fun nested hn => ?_
        split
        · exact gives_pure (hn _ rfl)
        · exact gives_malformed

theorem gives_nestedSimple : ∀ constructs : List Construct,
    Gives (nestedSimple setting location constructs) fun nested =>
      ∀ type, nested = some type → H.base (.inline type)
  | [] => by
      unfold nestedSimple
      exact gives_pure fun _ h => nomatch h
  | .mk name attributes bindings documentation children :: rest => by
      unfold nestedSimple
      exact gives_ite (gives_bind (gives_simpleType children) fun type ht =>
        gives_pure fun _ h => Option.some.inj h ▸ ht) (gives_nestedSimple rest)

theorem gives_inlineMembers : ∀ c : Construct,
    Gives (inlineMembers setting location c) fun members => ∀ b ∈ members, H.base b
  | .mk name attributes bindings documentation children => by
      unfold inlineMembers
      exact gives_inlineTypes children

theorem gives_inlineTypes : ∀ constructs : List Construct,
    Gives (inlineTypes setting location constructs) fun members => ∀ b ∈ members, H.base b
  | [] => by
      unfold inlineTypes
      exact gives_pure (List.forall_mem_nil _)
  | .mk name attributes bindings documentation children :: rest => by
      unfold inlineTypes
      exact gives_ite (gives_bind (gives_simpleType children) fun type ht =>
        gives_bind (gives_inlineTypes rest) fun more hm =>
          gives_pure (List.forall_mem_cons.2 ⟨ht, hm⟩)) (gives_inlineTypes rest)

end

/-! ### Attributes -/

theorem gives_attributeOf (name : QName) (qualified : Bool) (c : Construct) :
    Gives (attributeOf setting name qualified location c) H.attributeType := by
  unfold attributeOf
  refine gives_bind_any fun name? => ?_
  split
  · refine gives_pure fun base hb => ?_
    obtain rfl := Option.some.inj hb
    exact H.base_named _
  · refine gives_bind (gives_nestedSimple H setting location c.children) fun nested hn =>
      gives_pure fun base hb => ?_
    obtain ⟨type, ht, rfl⟩ := Option.map_eq_some_iff.1 hb
    exact hn type ht

theorem gives_attributeUse (c : Construct) :
    Gives (attributeUse setting location c) H.use := by
  unfold attributeUse
  refine gives_bind_any fun kind => gives_bind_any fun reference? => ?_
  split
  · exact gives_pure (H.use_reference _ _ _ _)
  · exact gives_bind_any fun name => gives_bind (gives_attributeOf H setting _ _ _ c)
      fun declaration hd => gives_pure (H.use_declared kind hd)

theorem gives_attributeUses (constructs : List Construct) :
    Gives (attributeUses setting location constructs) fun uses => ∀ u ∈ uses.1, H.use u := by
  induction constructs with
  | nil => exact gives_pure (List.forall_mem_nil _)
  | cons c rest ih =>
      unfold attributeUses
      refine gives_ite ?_ (gives_ite ?_ ?_)
      · exact gives_bind (gives_attributeUse H setting location c) fun use hu =>
          gives_bind ih fun uses hs => gives_pure (List.forall_mem_cons.2 ⟨hu, hs⟩)
      · exact gives_bind_any fun _ => gives_bind_any fun name => gives_bind ih fun uses hs =>
          gives_pure (List.forall_mem_cons.2 ⟨H.use_group name, hs⟩)
      · exact gives_bind ih fun uses hs => gives_pure hs

/-! ### Particles and complex types -/

/-- Bounds that are not in order are malformed. -/
theorem gives_occurs (c : Construct) :
    Gives (occurs location c) fun bounds => Bounds.IsOrdered ⟨bounds.1, bounds.2⟩ := by
  unfold occurs
  extract_lets upper
  have hupper : ∀ least, Gives (upper least) fun bounds =>
      Bounds.IsOrdered ⟨bounds.1, bounds.2⟩ := fun least => by
    unfold upper
    extract_lets ordered
    have hordered : ∀ most, Gives (ordered most) fun bounds =>
        Bounds.IsOrdered ⟨bounds.1, bounds.2⟩ := fun most => by
      unfold ordered
      split
      · next m =>
          split
          · exact gives_malformed
          · next hm => exact gives_pure (decide_eq_true (Nat.not_lt.1 hm))
      · exact gives_pure rfl
    split
    · exact gives_bind_any hordered
    · refine gives_ite (gives_bind_any hordered) ?_
      split
      · exact gives_bind_any hordered
      · exact gives_bind_any hordered
  split
  · exact gives_bind_any hupper
  · split
    · exact gives_bind_any hupper
    · exact gives_bind_any hupper

theorem gives_groupRef (c : Construct) : Gives (groupRef location c) H.particle :=
  gives_bind (gives_occurs location c) fun _ hb => gives_bind_any fun _ =>
    gives_bind_any fun name => gives_pure (H.particle_groupRef name hb)

theorem gives_elementOf (name : QName) (qualified : Bool) (c : Construct) {type : ElementType}
    (h : H.type type) :
    Gives (elementOf setting name qualified location c type) fun e => H.type e.type := by
  unfold elementOf
  dsimp only
  split
  · exact gives_bind_any fun _ => gives_pure h
  · exact gives_pure h

theorem gives_namedType (c : Construct) : Gives (namedType c) H.type := by
  unfold namedType
  refine gives_bind_any fun name? => ?_
  split
  · exact gives_pure (H.type_named _)
  · exact gives_pure H.type_any

theorem gives_simpleContent {type : ComplexType} (h : ∀ u ∈ type.attributes, H.use u)
    (outer : String) (constructs : List Construct) :
    Gives (simpleContent setting location type outer constructs) H.complex := by
  induction constructs with
  | nil => exact gives_malformed
  | cons c rest ih =>
      unfold simpleContent
      split
      · exact ih
      · next derivation _ =>
          refine gives_bind_any fun base => ?_
          have read : ∀ facets, Gives (attributeUses setting location c.children >>= fun uses =>
              Pure.pure { withUses type uses with content := .simple base derivation facets })
              H.complex := fun facets =>
            gives_bind (gives_attributeUses H setting location c.children) fun uses hu =>
              gives_pure (H.complex_withUses h (H.content_simple base derivation facets) hu)
          dsimp only
          split
          · exact gives_bind_any read
          · exact gives_bind_any read

mutual

theorem gives_complexParts (location : String) {type : ComplexType} (h : H.complex type) :
    ∀ constructs : List Construct,
      Gives (complexParts setting location type constructs) H.complex
  | [] => by
      unfold complexParts
      exact gives_pure h
  | c :: rest => by
      have particle : ∀ p : Particle, H.particle p →
          H.complex { type with content := .particle p } := fun p hp =>
        ⟨H.content_particle hp, h.2⟩
      unfold complexParts
      refine gives_ite ?_ (gives_ite ?_ (gives_ite ?_ (gives_ite ?_ ?_)))
      · exact gives_bind (gives_groupParticle location c) fun p hp =>
          gives_complexParts location (particle p hp) rest
      · exact gives_bind (gives_groupRef H location c) fun p hp =>
          gives_complexParts location (particle p hp) rest
      · exact gives_bind (gives_simpleContent H setting location h.2 _ _) fun _ ht =>
          gives_complexParts location ht rest
      · have mixed : ∀ mixed : Bool, ∀ u ∈ { type with mixed }.attributes, H.use u :=
          fun _ => h.2
        exact gives_bind (gives_complexContent location (mixed _) c) fun _ ht =>
          gives_complexParts location ht rest
      · split
        · exact gives_bind_any fun _ => gives_complexParts location h rest
        · exact gives_complexParts location h rest

theorem gives_complexContent (location : String) {type : ComplexType}
    (h : ∀ u ∈ type.attributes, H.use u) : ∀ c : Construct,
      Gives (complexContent setting location type c) H.complex
  | .mk name attributes bindings documentation children => by
      unfold complexContent
      exact gives_derivedContent location h name children

theorem gives_derivedContent (location : String) {type : ComplexType}
    (h : ∀ u ∈ type.attributes, H.use u) (outer : String) : ∀ constructs : List Construct,
      Gives (derivedContent setting location type outer constructs) H.complex
  | [] => by
      unfold derivedContent
      exact gives_malformed
  | .mk name attributes bindings documentation inner :: rest => by
      have derived : ∀ (derivation : Derivation) (base : QName) (particle : Option Particle),
          (∀ p, particle = some p → H.particle p) → H.content (match derivation with
            | .extension => .extension base particle
            | .restriction => .restriction base particle) := by
        intro derivation base particle hp
        cases derivation with
        | extension => exact H.content_extension base hp
        | restriction => exact H.content_restriction base hp
      unfold derivedContent
      split
      · exact gives_derivedContent location h outer rest
      · next derivation _ =>
          exact gives_bind_any fun base =>
            gives_bind (gives_derivedParticle location (fun _ (hn : none = some _) => nomatch hn)
              inner) fun particle hp =>
              gives_bind (gives_attributeUses H setting location inner) fun uses hu =>
                gives_pure (H.complex_withUses h (derived derivation base particle hp) hu)

theorem gives_derivedParticle (location : String) {particle : Option Particle}
    (h : ∀ p, particle = some p → H.particle p) : ∀ constructs : List Construct,
      Gives (derivedParticle setting location particle constructs) fun particle =>
        ∀ p, particle = some p → H.particle p
  | [] => by
      unfold derivedParticle
      exact gives_pure h
  | c :: rest => by
      unfold derivedParticle
      refine gives_ite ?_ (gives_ite ?_ ?_)
      · exact gives_bind (gives_groupParticle location c) fun p hp =>
          gives_derivedParticle location (fun _ hs => Option.some.inj hs ▸ hp) rest
      · exact gives_bind (gives_groupRef H location c) fun p hp =>
          gives_derivedParticle location (fun _ hs => Option.some.inj hs ▸ hp) rest
      · split
        · exact gives_bind_any fun _ => gives_derivedParticle location h rest
        · exact gives_derivedParticle location h rest

theorem gives_groupParticle (location : String) : ∀ c : Construct,
    Gives (groupParticle setting location c) H.particle
  | .mk name attributes bindings documentation children => by
      unfold groupParticle
      exact gives_bind (gives_occurs location _) fun _ hb =>
        gives_bind (gives_particles _ children) fun _ hp =>
          gives_pure (H.particle_group (compositorOf name) hb hp)

theorem gives_particles (location : String) : ∀ constructs : List Construct,
    Gives (particles setting location constructs) fun particles => ∀ p ∈ particles, H.particle p
  | [] => by
      unfold particles
      exact gives_pure (List.forall_mem_nil _)
  | c :: rest => by
      have further : ∀ p, H.particle p → Gives (particles setting location rest >>= fun more =>
          Pure.pure (p :: more)) fun particles => ∀ p ∈ particles, H.particle p := fun p hp =>
        gives_bind (gives_particles location rest) fun _ hm =>
          gives_pure (List.forall_mem_cons.2 ⟨hp, hm⟩)
      unfold particles
      refine gives_ite ?_ (gives_ite ?_ (gives_ite ?_ (gives_ite ?_ ?_)))
      · exact gives_bind (gives_elementParticle location c) further
      · exact gives_bind (gives_groupParticle location c) further
      · exact gives_bind (gives_groupRef H location c) further
      · exact gives_bind (gives_occurs location c) fun _ hb => further _ (H.particle_any hb)
      · exact gives_bind_any fun _ => gives_particles location rest

theorem gives_elementParticle (location : String) : ∀ c : Construct,
    Gives (elementParticle setting location c) H.particle
  | .mk name attributes bindings documentation children => by
      unfold elementParticle
      refine gives_bind (gives_occurs location _) fun _ hb => gives_bind_any fun reference? => ?_
      split
      · exact gives_pure (H.particle_elementRef _ hb)
      · exact gives_bind_any fun name => gives_bind (gives_namedType H _) fun named hn =>
          gives_bind (gives_elementType _ hn children) fun type ht =>
            gives_bind (gives_elementOf H setting _ _ _ _ ht) fun _ he =>
              gives_pure (H.particle_element hb he)

theorem gives_elementType (location : String) {type : ElementType} (h : H.type type) :
    ∀ constructs : List Construct, Gives (elementType setting location type constructs) H.type
  | [] => by
      unfold elementType
      exact gives_pure h
  | .mk name attributes bindings documentation children :: rest => by
      unfold elementType
      refine gives_ite ?_ (gives_ite ?_ ?_)
      · exact gives_bind (gives_simpleType H setting location children) fun _ hs =>
          gives_elementType location (H.type_simple hs) rest
      · exact gives_bind (gives_attributeUses H setting location children) fun _ hu =>
          gives_bind (gives_complexParts location ⟨H.content_empty, hu⟩ children) fun _ hc =>
            gives_elementType location (H.type_complex hc.1 hc.2) rest
      · exact gives_bind_any fun _ => gives_elementType location h rest

end

/-! ### Documents -/

theorem gives_complexType (c : Construct) :
    Gives (complexType setting location c) H.complex :=
  gives_bind (gives_attributeUses H setting location c.children) fun _ hu =>
    gives_complexParts H setting location ⟨H.content_empty, hu⟩ c.children

theorem gives_globalElement (name : String) (c : Construct) :
    Gives (globalElement setting name location c) fun e => H.type e.type :=
  gives_bind (gives_namedType H c) fun _ hn =>
    gives_bind (gives_elementType H setting location hn c.children) fun _ ht =>
      gives_elementOf H setting location _ true c ht

theorem gives_topLevel_holds {schema : Schema} (h : H.Holds schema) (c : Construct) :
    Gives (topLevel setting schema c) H.Holds := by
  obtain ⟨types, elements, groups, attributes, attributeGroups⟩ := h
  have imported : ∀ imports, H.Holds { schema with imports } := fun _ =>
    ⟨types, elements, groups, attributes, attributeGroups⟩
  unfold topLevel
  refine gives_ite (gives_pure (imported _)) (gives_ite (gives_pure (imported _)) (gives_ite
    (gives_bind_any fun _ => gives_pure (imported _)) (gives_ite ?_ (gives_ite ?_ (gives_ite ?_
      (gives_ite ?_ (gives_ite ?_ (gives_ite ?_ (gives_bind_any fun _ =>
        gives_pure (imported _))))))))))
  · exact gives_bind_any fun _ => gives_bind (gives_simpleType H setting _ c.children)
      fun _ ht => gives_pure
        ⟨forall_mem_concat types ht, elements, groups, attributes, attributeGroups⟩
  · exact gives_bind_any fun _ => gives_bind (gives_complexType H setting _ c)
      fun _ ht => gives_pure
        ⟨forall_mem_concat types ht, elements, groups, attributes, attributeGroups⟩
  · exact gives_bind_any fun _ => gives_bind (gives_globalElement H setting _ _ c)
      fun _ he => gives_pure
        ⟨types, forall_mem_concat elements he, groups, attributes, attributeGroups⟩
  · refine gives_bind_any fun name => ?_
    dsimp only
    split
    · exact gives_malformed
    · exact gives_bind (gives_particles H setting _ _) fun _ hp => gives_pure
        ⟨types, elements, forall_mem_concat groups hp, attributes, attributeGroups⟩
  · exact gives_bind_any fun _ => gives_bind (gives_attributeOf H setting _ _ _ c)
      fun _ hd => gives_pure
        ⟨types, elements, groups, forall_mem_concat attributes hd, attributeGroups⟩
  · exact gives_bind_any fun _ => gives_bind (gives_attributeUses H setting _ c.children)
      fun _ hu => gives_pure
        ⟨types, elements, groups, attributes, forall_mem_concat attributeGroups hu⟩

theorem gives_topLevels_holds (constructs : List Construct) {schema : Schema}
    (h : H.Holds schema) : Gives (topLevels setting schema constructs) H.Holds := by
  induction constructs generalizing schema with
  | nil => exact gives_pure h
  | cons c rest ih => exact gives_bind (gives_topLevel_holds H setting h c) fun _ hs => ih hs

/-- Every hereditary property holds of a schema that was read. -/
theorem IsRead.holds {schema : Schema} (h : schema.IsRead) : H.Holds schema :=
  h.of_topLevels fun setting _ constructs => gives_topLevels_holds H setting constructs
    ⟨List.forall_mem_nil _, List.forall_mem_nil _, List.forall_mem_nil _, List.forall_mem_nil _,
      List.forall_mem_nil _⟩

end Schema

end Crosswalk
