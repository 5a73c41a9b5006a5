import Crosswalk.Linkage.Reference
import Mathlib.Logic.Relation

/-!
# Names that a document mentions

A document mentions a declaration by name at many places, and at any depth. Here they are told by
what holds what: the components that each component holds itself, one step down, and the names that
it mentions itself. The references that are followed when files are linked are exactly these.
-/

namespace Crosswalk

/-- A part of a declaration that may mention others. -/
inductive Component where
  | simple (type : SimpleType)
  | attributeOf (declaration : Attribute)
  | use (use : AttributeUse)
  | element (declaration : Element)
  | complex (type : ComplexType)
  | particle (p : Particle)
  | group (group : ModelGroup)

namespace Component

/-- What a component holds itself. -/
inductive Holds : Component → Component → Prop
  | base {type : SimpleType} {facets : List Facet} :
    Holds (.simple (.restriction (.inline type) facets)) (.simple type)
  | item {type : SimpleType} : Holds (.simple (.list (.inline type))) (.simple type)
  | member {type : SimpleType} {members : List SimpleBase} (hm : .inline type ∈ members) :
    Holds (.simple (.union members)) (.simple type)
  | attributeType {declaration : Attribute} {type : SimpleType}
    (ht : declaration.type = some (.inline type)) : Holds (.attributeOf declaration) (.simple type)
  | declared {declaration : Attribute} {use : Use} :
    Holds (.use (.declared declaration use)) (.attributeOf declaration)
  | simpleType {declaration : Element} {type : SimpleType} (ht : declaration.type = .simple type) :
    Holds (.element declaration) (.simple type)
  | complexType {declaration : Element} {type : ComplexType}
    (ht : declaration.type = .complex type) : Holds (.element declaration) (.complex type)
  | attributes {type : ComplexType} {use : AttributeUse} (hu : use ∈ type.attributes) :
    Holds (.complex type) (.use use)
  | content {type : ComplexType} {p : Particle} (hc : type.content = .particle p) :
    Holds (.complex type) (.particle p)
  | extended {type : ComplexType} {base : QName} {p : Particle}
    (hc : type.content = .extension base (some p)) : Holds (.complex type) (.particle p)
  | restricted {type : ComplexType} {base : QName} {p : Particle}
    (hc : type.content = .restriction base (some p)) : Holds (.complex type) (.particle p)
  | localElement {p : Particle} {declaration : Element} (ht : p.term = .element declaration) :
    Holds (.particle p) (.element declaration)
  | nested {p : Particle} {group : ModelGroup} (ht : p.term = .group group) :
    Holds (.particle p) (.group group)
  | particles {group : ModelGroup} {p : Particle} (hp : p ∈ group.particles) :
    Holds (.group group) (.particle p)

/-- The declarations that a component mentions itself, of the kind that each place requires. -/
inductive Names : Component → DeclarationKind → QName → Prop
  | base {name : QName} {facets : List Facet} :
    Names (.simple (.restriction (.named name) facets)) .type name
  | item {name : QName} : Names (.simple (.list (.named name))) .type name
  | member {name : QName} {members : List SimpleBase} (hm : .named name ∈ members) :
    Names (.simple (.union members)) .type name
  | attributeType {declaration : Attribute} {name : QName}
    (ht : declaration.type = some (.named name)) : Names (.attributeOf declaration) .type name
  | attributeRef {name : QName} {use : Use} {default fixed : Option String} :
    Names (.use (.reference name use default fixed)) .attribute name
  | attributeGroupRef {name : QName} : Names (.use (.group name)) .attributeGroup name
  | elementType {declaration : Element} {name : QName} (ht : declaration.type = .named name) :
    Names (.element declaration) .type name
  | content {type : ComplexType} {name : QName} (hb : type.content.base? = some name) :
    Names (.complex type) .type name
  | elementRef {p : Particle} {name : QName} (ht : p.term = .elementRef name) :
    Names (.particle p) .element name
  | groupRef {p : Particle} {name : QName} (ht : p.term = .groupRef name) :
    Names (.particle p) .group name

/-- A component mentions a declaration, itself or in what it holds at any depth. -/
def Mentions (c : Component) (kind : DeclarationKind) (name : QName) : Prop :=
  ∃ d, Relation.ReflTransGen Holds c d ∧ d.Names kind name

theorem Names.mentions {c : Component} {kind : DeclarationKind} {name : QName}
    (h : c.Names kind name) : c.Mentions kind name := ⟨c, .refl, h⟩

theorem Holds.mentions {c d : Component} {kind : DeclarationKind} {name : QName} (h : Holds c d)
    (hd : d.Mentions kind name) : c.Mentions kind name := by
  obtain ⟨e, hde, he⟩ := hd
  exact ⟨e, .head h hde, he⟩

/-- The references of a component. -/
def references (location : String) : Component → List Reference
  | simple type => type.references location
  | attributeOf declaration => declaration.references location
  | use u => u.references location
  | element declaration => declaration.references location
  | complex type => type.references location
  | particle p => p.references location
  | group g => g.references location

end Component

/-- The top-level components of a document. -/
def Schema.components (schema : Schema) : List Component :=
  (schema.types.map fun t => match t.definition with
    | .simple type => .simple type
    | .complex type => .complex type) ++
  schema.elements.map .element ++ (schema.groups.map fun g => .group g.group) ++
  schema.attributes.map .attributeOf ++
  schema.attributeGroups.flatMap fun g => g.attributes.map .use

/-- A document mentions a declaration of a kind by name. -/
def Schema.Mentions (schema : Schema) (kind : DeclarationKind) (name : QName) : Prop :=
  ∃ c ∈ schema.components, c.Mentions kind name

/-! ### References are mentions -/

open Component

variable {location : String} {r : Reference}

mutual

theorem SimpleType.mentions_of_mem : ∀ type : SimpleType, r ∈ type.references location →
    (Component.simple type).Mentions r.kind r.name
  | .restriction (.named _) _, h => by
      obtain rfl := List.mem_singleton.1 h
      exact Names.base.mentions
  | .restriction (.inline type) _, h => Holds.base.mentions (SimpleType.mentions_of_mem type h)
  | .list (.named _), h => by
      obtain rfl := List.mem_singleton.1 h
      exact Names.item.mentions
  | .list (.inline type), h => Holds.item.mentions (SimpleType.mentions_of_mem type h)
  | .union members, h => by
      obtain ⟨name, hm, rfl⟩ | ⟨type, hm, ht⟩ := exists_of_mem_basesReferences members h
      · exact (Names.member hm).mentions
      · exact (Holds.member hm).mentions ht

theorem exists_of_mem_basesReferences : ∀ bases : List SimpleBase,
    r ∈ basesReferences location bases →
      (∃ name, .named name ∈ bases ∧ r = ⟨.type, name, location⟩) ∨
        ∃ type, .inline type ∈ bases ∧ (Component.simple type).Mentions r.kind r.name
  | [], h => absurd h List.not_mem_nil
  | .named name :: rest, h => by
      rcases List.mem_append.1 h with h | h
      · exact .inl ⟨name, List.mem_cons_self, List.mem_singleton.1 h⟩
      · exact (exists_of_mem_basesReferences rest h).imp
          (fun ⟨n, hn, heq⟩ => ⟨n, List.mem_cons_of_mem _ hn, heq⟩)
          (fun ⟨t, ht, hm⟩ => ⟨t, List.mem_cons_of_mem _ ht, hm⟩)
  | .inline type :: rest, h => by
      rcases List.mem_append.1 h with h | h
      · exact .inr ⟨type, List.mem_cons_self, SimpleType.mentions_of_mem type h⟩
      · exact (exists_of_mem_basesReferences rest h).imp
          (fun ⟨n, hn, heq⟩ => ⟨n, List.mem_cons_of_mem _ hn, heq⟩)
          (fun ⟨t, ht, hm⟩ => ⟨t, List.mem_cons_of_mem _ ht, hm⟩)

end

theorem Attribute.mentions_of_mem {a : Attribute} (h : r ∈ a.references location) :
    (Component.attributeOf a).Mentions r.kind r.name := by
  obtain ⟨_, _, _ | _ | type, _, _, _⟩ := a
  · exact absurd h List.not_mem_nil
  · obtain rfl := List.mem_singleton.1 h
    exact (Names.attributeType rfl).mentions
  · exact (Holds.attributeType rfl).mentions (type.mentions_of_mem h)

theorem AttributeUse.mentions_of_mem {u : AttributeUse} (h : r ∈ u.references location) :
    (Component.use u).Mentions r.kind r.name := by
  cases u with
  | declared a use => exact Holds.declared.mentions (Attribute.mentions_of_mem h)
  | reference name use default fixed =>
      obtain rfl := List.mem_singleton.1 h
      exact Names.attributeRef.mentions
  | group name =>
      obtain rfl := List.mem_singleton.1 h
      exact Names.attributeGroupRef.mentions

theorem exists_of_mem_usesReferences {uses : List AttributeUse}
    (h : r ∈ usesReferences location uses) :
    ∃ u ∈ uses, (Component.use u).Mentions r.kind r.name := by
  obtain ⟨u, hu, hr⟩ := List.mem_flatMap.1 h
  exact ⟨u, hu, AttributeUse.mentions_of_mem hr⟩

mutual

theorem Element.mentions_of_mem {location : String} : ∀ e : Element, r ∈ e.references location →
    (Component.element e).Mentions r.kind r.name
  | ⟨_, _, .named _, _, _, _, _⟩, h => by
      obtain rfl := List.mem_singleton.1 h
      exact (Names.elementType rfl).mentions
  | ⟨_, _, .simple type, _, _, _, _⟩, h =>
      (Holds.simpleType rfl).mentions (type.mentions_of_mem h)
  | ⟨_, _, .complex type, _, _, _, _⟩, h =>
      (Holds.complexType rfl).mentions (ComplexType.mentions_of_mem type h)
  | ⟨_, _, .any, _, _, _, _⟩, h => absurd h List.not_mem_nil

theorem ComplexType.mentions_of_mem {location : String} : ∀ type : ComplexType,
    r ∈ type.references location → (Component.complex type).Mentions r.kind r.name
  | ⟨content, attributes, anyAttribute, mixed⟩, h => by
      rcases List.mem_append.1 h with h | h
      · match content, h with
        | .empty, h => exact absurd h List.not_mem_nil
        | .particle p, h => exact (Holds.content rfl).mentions (Particle.mentions_of_mem p h)
        | .extension base none, h =>
            obtain rfl := List.mem_singleton.1 h
            exact (Names.content rfl).mentions
        | .extension base (some p), h =>
            rcases List.mem_cons.1 h with rfl | h
            · exact (Names.content rfl).mentions
            · exact (Holds.extended rfl).mentions (Particle.mentions_of_mem p h)
        | .restriction base none, h =>
            obtain rfl := List.mem_singleton.1 h
            exact (Names.content rfl).mentions
        | .restriction base (some p), h =>
            rcases List.mem_cons.1 h with rfl | h
            · exact (Names.content rfl).mentions
            · exact (Holds.restricted rfl).mentions (Particle.mentions_of_mem p h)
        | .simple base _ _, h =>
            obtain rfl := List.mem_singleton.1 h
            exact (Names.content rfl).mentions
      · obtain ⟨u, hu, hm⟩ := exists_of_mem_usesReferences h
        exact (Holds.attributes hu).mentions hm

theorem Particle.mentions_of_mem {location : String} : ∀ p : Particle,
    r ∈ p.references location → (Component.particle p).Mentions r.kind r.name
  | ⟨_, _, .element e⟩, h => (Holds.localElement rfl).mentions (Element.mentions_of_mem e h)
  | ⟨_, _, .elementRef _⟩, h => by
      obtain rfl := List.mem_singleton.1 h
      exact (Names.elementRef rfl).mentions
  | ⟨_, _, .group g⟩, h => (Holds.nested rfl).mentions (ModelGroup.mentions_of_mem g h)
  | ⟨_, _, .groupRef _⟩, h => by
      obtain rfl := List.mem_singleton.1 h
      exact (Names.groupRef rfl).mentions
  | ⟨_, _, .any⟩, h => absurd h List.not_mem_nil

theorem ModelGroup.mentions_of_mem {location : String} : ∀ g : ModelGroup,
    r ∈ g.references location → (Component.group g).Mentions r.kind r.name
  | ⟨_, particles⟩, h => by
      obtain ⟨p, hp, hm⟩ := exists_of_mem_particlesReferences particles h
      exact (Holds.particles hp).mentions hm

theorem exists_of_mem_particlesReferences {location : String} : ∀ particles : List Particle,
    r ∈ particlesReferences location particles →
      ∃ p ∈ particles, (Component.particle p).Mentions r.kind r.name
  | [], h => absurd h List.not_mem_nil
  | p :: rest, h => by
      rcases List.mem_append.1 h with h | h
      · exact ⟨p, List.mem_cons_self, Particle.mentions_of_mem p h⟩
      · obtain ⟨q, hq, hm⟩ := exists_of_mem_particlesReferences rest h
        exact ⟨q, List.mem_cons_of_mem _ hq, hm⟩

end

/-! ### Mentions are references -/

variable {kind : DeclarationKind} {name : QName} {c d : Component}

/-- Some reference is to a declaration of a kind and name. -/
def IsReferred (kind : DeclarationKind) (name : QName) (references : List Reference) : Prop :=
  ∃ r ∈ references, r.kind = kind ∧ r.name = name

theorem IsReferred.of_subset {refs more : List Reference} (h : IsReferred kind name refs)
    (hs : refs ⊆ more) : IsReferred kind name more := by
  obtain ⟨r, hr, heq⟩ := h
  exact ⟨r, hs hr, heq⟩

theorem isReferred_cons (location : String) (refs : List Reference) :
    IsReferred kind name (⟨kind, name, location⟩ :: refs) :=
  ⟨_, List.mem_cons_self, rfl, rfl⟩

theorem subset_basesReferences {b : SimpleBase} {bases : List SimpleBase} (h : b ∈ bases) :
    b.references location ⊆ basesReferences location bases := by
  induction bases with
  | nil => exact absurd h List.not_mem_nil
  | cons first rest ih =>
      rw [basesReferences]
      rcases List.mem_cons.1 h with rfl | h
      · exact List.subset_append_left _ _
      · exact List.subset_append_of_subset_right _ (ih h)

theorem subset_particlesReferences {p : Particle} {particles : List Particle}
    (h : p ∈ particles) : p.references location ⊆ particlesReferences location particles := by
  induction particles with
  | nil => exact absurd h List.not_mem_nil
  | cons first rest ih =>
      rw [particlesReferences]
      rcases List.mem_cons.1 h with rfl | h
      · exact List.subset_append_left _ _
      · exact List.subset_append_of_subset_right _ (ih h)

theorem subset_usesReferences {u : AttributeUse} {uses : List AttributeUse} (h : u ∈ uses) :
    u.references location ⊆ usesReferences location uses := fun _ hr =>
  List.mem_flatMap.2 ⟨u, h, hr⟩

namespace Component

theorem Names.isReferred (h : c.Names kind name) (location : String) :
    IsReferred kind name (c.references location) := by
  cases h with
  | base => exact isReferred_cons _ _
  | item => exact isReferred_cons _ _
  | member hm => exact (isReferred_cons _ []).of_subset (subset_basesReferences hm)
  | @attributeType declaration _ ht =>
      rw [references, Attribute.references, ht]
      exact isReferred_cons _ _
  | attributeRef => exact isReferred_cons _ _
  | attributeGroupRef => exact isReferred_cons _ _
  | @elementType declaration _ ht =>
      obtain ⟨_, _, type, _, _, _, _⟩ := declaration
      obtain rfl : type = .named name := ht
      exact isReferred_cons _ _
  | @content type _ hb =>
      obtain ⟨content, attributes, _, _⟩ := type
      have hcontent : IsReferred .type name (content.references location) := by
        rcases content with _ | _ | ⟨_, _ | _⟩ | ⟨_, _ | _⟩ | _
        · exact nomatch hb
        · exact nomatch hb
        all_goals
          obtain rfl := Option.some.inj hb
          exact isReferred_cons _ _
      exact hcontent.of_subset (List.subset_append_left _ _)
  | @elementRef p _ ht =>
      obtain ⟨_, _, term⟩ := p
      obtain rfl : term = .elementRef name := ht
      exact isReferred_cons _ _
  | @groupRef p _ ht =>
      obtain ⟨_, _, term⟩ := p
      obtain rfl : term = .groupRef name := ht
      exact isReferred_cons _ _

/-- The references of a component are those of one that holds it, at some location. -/
theorem Holds.subset (h : Holds c d) (location : String) :
    ∃ inner, d.references inner ⊆ c.references location := by
  cases h with
  | base => exact ⟨location, List.Subset.refl _⟩
  | item => exact ⟨location, List.Subset.refl _⟩
  | member hm => exact ⟨location, subset_basesReferences hm⟩
  | @attributeType declaration type ht =>
      refine ⟨location, ?_⟩
      rw [references, references, Attribute.references, ht]
      exact List.Subset.refl _
  | declared => exact ⟨_, List.Subset.refl _⟩
  | @simpleType declaration type ht =>
      obtain ⟨_, _, t, _, _, _, _⟩ := declaration
      obtain rfl : t = .simple type := ht
      exact ⟨location, List.Subset.refl _⟩
  | @complexType declaration type ht =>
      obtain ⟨_, _, t, _, _, _, _⟩ := declaration
      obtain rfl : t = .complex type := ht
      exact ⟨location, List.Subset.refl _⟩
  | @attributes type use hu =>
      obtain ⟨_, attributes, _, _⟩ := type
      exact ⟨location, List.subset_append_of_subset_right _ (subset_usesReferences hu)⟩
  | @content type p hc =>
      obtain ⟨content, _, _, _⟩ := type
      obtain rfl : content = .particle p := hc
      exact ⟨location, List.subset_append_left _ _⟩
  | @extended type base p hc =>
      obtain ⟨content, _, _, _⟩ := type
      obtain rfl : content = .extension base (some p) := hc
      exact ⟨location, List.subset_append_of_subset_left _ (List.subset_cons_self _ _)⟩
  | @restricted type base p hc =>
      obtain ⟨content, _, _, _⟩ := type
      obtain rfl : content = .restriction base (some p) := hc
      exact ⟨location, List.subset_append_of_subset_left _ (List.subset_cons_self _ _)⟩
  | @localElement p declaration ht =>
      obtain ⟨_, _, term⟩ := p
      obtain rfl : term = .element declaration := ht
      exact ⟨_, List.Subset.refl _⟩
  | @nested p group ht =>
      obtain ⟨_, _, term⟩ := p
      obtain rfl : term = .group group := ht
      exact ⟨location, List.Subset.refl _⟩
  | @particles group p hp =>
      obtain ⟨_, particles⟩ := group
      exact ⟨location, subset_particlesReferences hp⟩

theorem Mentions.isReferred (h : c.Mentions kind name) :
    ∀ location, IsReferred kind name (c.references location) := by
  obtain ⟨d, hcd, hd⟩ := h
  induction hcd using Relation.ReflTransGen.head_induction_on with
  | refl => exact hd.isReferred
  | head hstep _ ih =>
      intro location
      obtain ⟨inner, hsub⟩ := hstep.subset location
      exact (ih inner).of_subset hsub

theorem mentions_of_mem (h : r ∈ c.references location) : c.Mentions r.kind r.name := by
  cases c with
  | simple type => exact type.mentions_of_mem h
  | attributeOf declaration => exact Attribute.mentions_of_mem h
  | use u => exact AttributeUse.mentions_of_mem h
  | element declaration => exact declaration.mentions_of_mem h
  | complex type => exact type.mentions_of_mem h
  | particle p => exact p.mentions_of_mem h
  | group g => exact g.mentions_of_mem h

end Component

namespace Schema

variable {schema : Schema}

theorem exists_component (h : r ∈ schema.references) :
    ∃ c ∈ schema.components, ∃ location, r ∈ c.references location := by
  simp only [Schema.references, List.mem_append, List.mem_flatMap] at h
  simp only [components, List.mem_append, List.mem_map, List.mem_flatMap]
  rcases h with (((⟨t, ht, hr⟩ | ⟨e, he, hr⟩) | ⟨g, hg, hr⟩) | ⟨a, ha, hr⟩) | ⟨g, hg, hr⟩
  · obtain ⟨name, _ | type, documentation⟩ := t
    · exact ⟨_, .inl (.inl (.inl (.inl ⟨_, ht, rfl⟩))), _, hr⟩
    · exact ⟨_, .inl (.inl (.inl (.inl ⟨_, ht, rfl⟩))), _, hr⟩
  · exact ⟨_, .inl (.inl (.inl (.inr ⟨e, he, rfl⟩))), _, hr⟩
  · exact ⟨_, .inl (.inl (.inr ⟨g, hg, rfl⟩)), _, hr⟩
  · exact ⟨_, .inl (.inr ⟨a, ha, rfl⟩), _, hr⟩
  · obtain ⟨u, hu, hr⟩ := List.mem_flatMap.1 hr
    exact ⟨_, .inr ⟨g, hg, u, hu, rfl⟩, _, hr⟩

theorem subset_references (h : c ∈ schema.components) :
    ∃ location, c.references location ⊆ schema.references := by
  simp only [components, List.mem_append, List.mem_map, List.mem_flatMap] at h
  simp only [List.subset_def, Schema.references, List.mem_append, List.mem_flatMap]
  rcases h with (((⟨t, ht, rfl⟩ | ⟨e, he, rfl⟩) | ⟨g, hg, rfl⟩) | ⟨a, ha, rfl⟩) |
    ⟨g, hg, u, hu, rfl⟩
  · obtain ⟨name, _ | type, documentation⟩ := t
    · exact ⟨_, fun hr => .inl (.inl (.inl (.inl ⟨_, ht, hr⟩)))⟩
    · exact ⟨_, fun hr => .inl (.inl (.inl (.inl ⟨_, ht, hr⟩)))⟩
  · exact ⟨_, fun hr => .inl (.inl (.inl (.inr ⟨e, he, hr⟩)))⟩
  · exact ⟨_, fun hr => .inl (.inl (.inr ⟨g, hg, hr⟩))⟩
  · exact ⟨_, fun hr => .inl (.inr ⟨a, ha, hr⟩)⟩
  · exact ⟨_, fun hr => .inr ⟨g, hg, subset_usesReferences hu hr⟩⟩

/-- What a document refers to is what it mentions. -/
theorem isReferred_iff_mentions :
    IsReferred kind name schema.references ↔ schema.Mentions kind name := by
  constructor
  · rintro ⟨r, hr, rfl, rfl⟩
    obtain ⟨c, hc, location, hmem⟩ := exists_component hr
    exact ⟨c, hc, mentions_of_mem hmem⟩
  · rintro ⟨c, hc, hm⟩
    obtain ⟨location, hsub⟩ := subset_references hc
    exact (hm.isReferred location).of_subset hsub

end Schema

end Crosswalk
