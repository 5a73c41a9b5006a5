import Crosswalk.Proofs.Content.Word
import Crosswalk.Proofs.Conversion.Lookup

/-!
# Lookups of complex types and model groups

The conversion of a file fails for nothing but the listed causes: every base, model group, element
and attribute is looked up from the file that mentions it, and every declaration that is expanded is
one that those around it unfold to. A particle that cannot occur is not looked at, and what it holds
does not count.
-/

namespace Crosswalk

namespace Conversion

open Declarations

variable {context : Context} {v : Visited} {depth : Nat} {expand : Expansions}

/-! ### Bases -/

/-- Complex types and model groups of which there is room for so many are expanded. -/
structure Expands (context : Context) (depth : Nat) (expand : Expansions) : Prop where
  base : ∀ (v : Visited) (site : Site) (inheritance : Inheritance) (located : Located NamedType)
    (type : ComplexType) (shape : Shape), Inside context.linkage v →
    context.linkage.declarations.types.length + context.linkage.declarations.groups.length + 1 ≤
      depth + v.complex.length + v.groups.length →
    located.file ∈ context.linkage.catalog.files →
    located.declaration ∈ located.file.schema.types →
    located.declaration.definition = .complex type →
    (∀ m, context.linkage.Unfolds (.type, located.declaration.name) m →
      Leads context.linkage v m) →
    FailsOnly v context.linkage.Causes (expand.base site inheritance located type shape)
  group : ∀ (v : Visited) (site : Site) (located : Located NamedGroup) (bounds : Bounds)
    (nested : Bool) (shape : Shape), Inside context.linkage v →
    context.linkage.declarations.types.length + context.linkage.declarations.groups.length + 1 ≤
      depth + v.complex.length + v.groups.length →
    located.file ∈ context.linkage.catalog.files →
    located.declaration ∈ located.file.schema.groups →
    (∀ m, context.linkage.Unfolds (.group, located.declaration.name) m →
      Leads context.linkage v m) →
    FailsOnly v context.linkage.Causes (expand.group site located bounds nested shape)

/-- There is room for every type and group that the conversion is not inside of. -/
structure Room (context : Context) (v : Visited) (depth : Nat) (expand : Expansions) : Prop where
  linked : context.linkage.IsLinked
  inside : Inside context.linkage v
  expands : Expands context depth expand
  fits : context.linkage.declarations.types.length + context.linkage.declarations.groups.length ≤
    depth + v.complex.length + v.groups.length

/-- A complex type that was found is expanded. -/
theorem failsOnly_expandBase (room : Room context v depth expand) {site : Site}
    {base : QName} (hb : base.isBuiltin = false) {located : Located NamedType} {type : ComplexType}
    (hl : context.linkage.type? site.scope base = some located)
    (htype : located.declaration.definition = .complex type)
    {refs : List Reference} {mentions : List Mention}
    (h : Ready context.linkage v site.scope refs mentions) (hm : (.type, base) ∈ mentions)
    (inheritance : Inheritance) (shape : Shape) :
    FailsOnly v context.linkage.Causes (visiting .complex site.scope located.declaration.name
      (expand.base site inheritance located type shape)) := by
  have hl : context.linkage.lookup? .types site.scope base = some located := hl
  obtain ⟨hfile, hd, -⟩ := room.linked.found hl
  refine failsOnly_visiting .complex room.inside (room.linked.contains (.inl hb) hl)
    (h.leads_found room.linked hm hl) fun _ hi hleads => ?_
  exact room.expands.base _ site inheritance located type shape hi
    (fits_enter_content (.inl rfl) room.fits) hfile hd htype hleads

theorem failsOnly_collectBase (room : Room context v depth expand) {site : Site}
    {base : QName} {location : String} {refs : List Reference} {mentions : List Mention}
    (h : Ready context.linkage v site.scope refs mentions) (hr : ⟨.type, base, location⟩ ∈ refs)
    (hm : (.type, base) ∈ mentions) (inheritance : Inheritance) (shape : Shape) :
    FailsOnly v context.linkage.Causes
      (collectBase context expand site inheritance base shape) := by
  unfold collectBase
  split
  · split
    · exact .pure _
    · exact .bind (isQuiet_silent.site_diagnose context site _).failsOnly fun _ => .pure _
  · next hb =>
      have hb := Bool.eq_false_iff.2 hb
      refine .found_bind (fun hn => h.not_found .types hr (.inl hb) hn _) fun located hl => ?_
      split
      · next type htype =>
          exact failsOnly_expandBase room hb hl htype h hm inheritance shape
      · exact .bind (isQuiet_silent.site_diagnose context site _).failsOnly fun _ => .pure _

theorem yields_complexBase? (context : Context) (site : Site) (base : QName) :
    Yields (complexBase? context site base) fun found => ∀ located type,
      found = some (located, type) → base.isBuiltin = false ∧
        context.linkage.type? site.scope base = some located ∧
        located.declaration.definition = .complex type := by
  unfold complexBase?
  split
  · exact Yields.pure fun _ _ h => nomatch h
  · next hb =>
      refine (Yields.found (P := fun a => context.linkage.type? site.scope base = some a)
        fun _ ha => ha).bind fun located hl => ?_
      split
      · next type htype =>
          refine Yields.pure fun other t h => ?_
          obtain ⟨rfl, rfl⟩ := Prod.mk.inj (Option.some.inj h)
          exact ⟨Bool.eq_false_iff.2 hb, hl, htype⟩
      · exact Yields.pure fun _ _ h => nomatch h

/-- A type that was found under another name is found under its own. Only if this is a name of XML
Schema itself, it may stand for something else. -/
theorem Ready.of_found (hlinked : context.linkage.IsLinked) {scope : File} {name : QName}
    (hb : name.isBuiltin = false) {located : Located NamedType}
    (hl : context.linkage.type? scope name = some located)
    (hleads : Leads context.linkage v (.type, located.declaration.name)) (location : String) :
    Ready context.linkage v located.file [⟨.type, located.declaration.name, location⟩]
      [(.type, located.declaration.name)] := by
  have hl : context.linkage.lookup? .types scope name = some located := hl
  obtain ⟨-, -, r, hr, hn⟩ := hlinked.found hl
  have hself : located.declaration.name.isBuiltin = false →
      context.linkage.resolve? .type located.file located.declaration.name =
        some ⟨located.declaration.name, false⟩ := fun hown =>
    Linkage.resolve?_of_contains hown (hlinked.contains (.inl hb) hl)
  refine ⟨List.forall_mem_singleton.2 fun hnone referencing => ?_,
    List.forall_mem_singleton.2 fun other ho => ?_⟩
  · cases hown : located.declaration.name.isBuiltin with
    | false => exact absurd (hself hown) (by simp [hnone])
    | true =>
        rw [Linkage.resolve?_builtin hown] at hnone
        split at hnone
        · exact nomatch hnone
        · next hk =>
            have hname : r.name = located.declaration.name := hn
            rw [← hname] at hown hk ⊢
            exact .borrowed _ referencing hr hb hown (Bool.eq_false_iff.2 hk)
  · cases hown : located.declaration.name.isBuiltin with
    | false =>
        rw [hself hown] at ho
        exact Option.some.inj ho ▸ hleads
    | true =>
        rw [Linkage.resolve?_builtin hown] at ho
        split at ho
        · exact Option.some.inj ho ▸ hleads
        · exact nomatch ho

/-- Where a name is mentioned does not matter. -/
theorem Ready.relocate {scope : File} {kind : DeclarationKind} {name : QName} {location : String}
    {mentions : List Mention}
    (h : Ready context.linkage v scope [⟨kind, name, location⟩] mentions) (other : String) :
    Ready context.linkage v scope [⟨kind, name, other⟩] mentions :=
  ⟨List.forall_mem_singleton.2 (List.forall_mem_singleton.1 h.missing), h.leads⟩

/-- What stands at the end of a chain of types with simple content can be looked up there. -/
theorem Ready.of_textRoot? (hlinked : context.linkage.IsLinked) {location : String} {root : QName}
    {scope : File} : ∀ (steps : Nat) {file : File} {name : QName},
      Ready context.linkage v file [⟨.type, name, location⟩] [(.type, name)] →
      textRoot? context steps file name = some (scope, root) →
      Ready context.linkage v scope [⟨.type, root, location⟩] [(.type, root)]
  | 0, _, _, _, hroot => nomatch hroot
  | steps + 1, file, name, h, hroot => by
      unfold textRoot? at hroot
      split at hroot
      · obtain ⟨rfl, rfl⟩ := Prod.mk.inj (Option.some.inj hroot)
        exact h
      · next hb =>
          have hb := Bool.eq_false_iff.2 hb
          split at hroot
          · exact nomatch hroot
          · next located hl =>
              have hl' : context.linkage.lookup? .types file name = some located := hl
              have hleads := h.leads_found hlinked (List.mem_singleton_self _) hl'
              obtain ⟨hfile, hd, -⟩ := hlinked.found hl'
              split at hroot
              · obtain ⟨rfl, rfl⟩ := Prod.mk.inj (Option.some.inj hroot)
                exact .of_found hlinked hb hl hleads location
              · next type htype =>
                  split at hroot
                  · next base derivation facets hcontent =>
                      have hready := Ready.of_type hfile hd fun _ hu => hleads.step hu
                      obtain ⟨_, attributes, any, mixed⟩ := type
                      obtain rfl := hcontent
                      rw [htype] at hready
                      exact of_textRoot? hlinked steps (hready.left.relocate location) hroot
                  · exact nomatch hroot

/-! ### Simple content -/

theorem failsOnly_narrowText (hlinked : context.linkage.IsLinked)
    (hi : Inside context.linkage v) {site : Site} {base : QName} (hb : base.isBuiltin = false)
    {located : Located NamedType} (hl : context.linkage.type? site.scope base = some located)
    (hleads : Leads context.linkage v (.type, located.declaration.name)) (facets : List Facet)
    (shape : Shape) :
    FailsOnly v context.linkage.Causes (narrowText context site located facets shape) := by
  unfold narrowText
  split
  · next scope root hroot =>
      have h : Ready context.linkage v scope
          ((SimpleType.restriction (.named root) facets).references site.location)
          (SimpleType.restriction (.named root) facets).unfolded :=
        .of_textRoot? hlinked _ (.of_found hlinked hb hl hleads site.location) hroot
      exact (failsOnly_simpleSchema hlinked hi _ false h).map
  · exact .bind (isQuiet_silent.site_diagnose context site _).failsOnly fun _ => .pure _

theorem failsOnly_textSchema (hlinked : context.linkage.IsLinked)
    (hi : Inside context.linkage v) {site : Site} {base : QName} {location : String}
    (h : Ready context.linkage v site.scope [⟨.type, base, location⟩] [(.type, base)])
    (facets : List Facet) :
    FailsOnly v context.linkage.Causes (textSchema context site base facets) := by
  unfold textSchema
  split
  · exact failsOnly_typeReference h (List.mem_singleton_self _) _
  · have h : Ready context.linkage v site.scope
        ((SimpleType.restriction (.named base) facets).references location)
        (SimpleType.restriction (.named base) facets).unfolded := h
    exact failsOnly_simpleSchema hlinked hi _ true h

theorem failsOnly_complexBase? {site : Site} {base : QName} {location : String}
    (h : Ready context.linkage v site.scope [⟨.type, base, location⟩] [(.type, base)]) :
    FailsOnly v context.linkage.Causes (complexBase? context site base) := by
  unfold complexBase?
  split
  · exact .pure _
  · next hb =>
      refine .found_bind (fun hn => ?_) fun located _ => ?_
      · exact h.not_found .types (List.mem_singleton_self _) (.inl (Bool.eq_false_iff.2 hb)) hn _
      · split <;> exact .pure _

theorem failsOnly_collectText (room : Room context v depth expand) {site : Site}
    {base : QName} {location : String}
    (h : Ready context.linkage v site.scope [⟨.type, base, location⟩] [(.type, base)])
    (derivation : Derivation) (facets : List Facet) (shape : Shape) :
    FailsOnly v context.linkage.Causes
      (collectText context expand site base derivation facets shape) := by
  unfold collectText
  refine .bind_of (failsOnly_complexBase? h) (yields_complexBase? context site base)
    fun found hfound => ?_
  cases found with
  | none => exact (failsOnly_textSchema room.linked room.inside h _).map
  | some pair =>
      obtain ⟨located, type⟩ := pair
      obtain ⟨hb, hl, htype⟩ := hfound located type rfl
      refine .bind (failsOnly_expandBase room hb hl htype h
        (List.mem_singleton_self _) .everything shape) fun shape => ?_
      have hl' : context.linkage.lookup? .types site.scope base = some located := hl
      have hleads := h.leads_found room.linked (List.mem_singleton_self _) hl'
      exact .ite (.pure _) (failsOnly_narrowText room.linked room.inside hb hl hleads _ shape)

/-! ### Content models -/

theorem failsOnly_collectGroupRef (room : Room context v depth expand) {site : Site}
    {reference : QName} {location : String}
    (h : Ready context.linkage v site.scope [⟨.group, reference, location⟩] [(.group, reference)])
    (bounds : Bounds) (nested : Bool) (shape : Shape) :
    FailsOnly v context.linkage.Causes
      (collectGroupRef context expand site reference bounds nested shape) := by
  unfold collectGroupRef
  have hb : reference.isBuiltin = false ∨ Row.groups.kind ≠ .type := .inr (by decide)
  refine .found_bind (fun hn => h.not_found .groups (List.mem_singleton_self _) hb hn _)
    fun located hl => ?_
  have hl : context.linkage.lookup? .groups site.scope reference = some located := hl
  obtain ⟨hfile, hd, -⟩ := room.linked.found hl
  refine failsOnly_visiting .group room.inside (room.linked.contains hb hl)
    (h.leads_found room.linked (List.mem_singleton_self _) hl) fun _ hi hleads => ?_
  have hexpand := fun bounds nested shape =>
    room.expands.group _ site located bounds nested shape hi
      (fits_enter_content (.inr rfl) room.fits) hfile hd hleads
  exact .ite (hexpand .once true {}).map (hexpand bounds nested shape)

theorem failsOnly_collectElementRef {site : Site} {reference : QName} {location : String}
    {mentions : List Mention}
    (h : Ready context.linkage v site.scope [⟨.element, reference, location⟩] mentions)
    (bounds : Bounds) (shape : Shape) :
    FailsOnly v context.linkage.Causes
      (collectElementRef context site reference bounds shape) :=
  .found_bind (fun hn => h.not_found .elements (List.mem_singleton_self _) (.inr (by decide)) hn _)
    fun _ _ => (isQuiet_silent.addElement context site _ _ shape).failsOnly

/-- A particle that can occur makes up the bounds of what it holds. -/
theorem most_ne_zero {least : Count} {most : Limit} {outer : Bounds}
    (h : (Bounds.times ⟨least, most⟩ outer).most ≠ .zero) : most ≠ .zero := by
  rintro rfl
  exact h (Limit.zero_times _)

mutual

theorem failsOnly_collectComplex (room : Room context v depth expand) {site : Site}
    (inheritance : Inheritance) (shape : Shape) {location : String} : ∀ type : ComplexType,
      Ready context.linkage v site.scope (type.references location) type.unfolded →
      FailsOnly v context.linkage.Causes
        (collectComplex context expand site inheritance shape type)
  | ⟨content, attributes, anyAttribute, mixed⟩, h => by
      unfold collectComplex
      have collected := FailsOnly.bind
        (failsOnly_collectContent room inheritance shape content h.left) fun shape =>
          (failsOnly_collectAttributes room.linked room.inside h.right shape).map
            (g := fun s => if anyAttribute then { s with isOpen := true } else s)
      exact .ite (.bind (isQuiet_silent.site_diagnose context site _).failsOnly fun _ => collected)
        collected

theorem failsOnly_collectContent (room : Room context v depth expand) {site : Site}
    (inheritance : Inheritance) (shape : Shape) {location : String} : ∀ content : Content,
      Ready context.linkage v site.scope (content.references location) content.unfolded →
      FailsOnly v context.linkage.Causes
        (collectContent context expand site inheritance shape content)
  | .empty, _ => by
      unfold collectContent
      exact .pure _
  | .particle p, h => by
      unfold collectContent
      exact .ite (failsOnly_collectParticle room .once false shape p h) (.pure _)
  | .extension base none, h => by
      unfold collectContent
      exact failsOnly_collectBase room h List.mem_cons_self List.mem_cons_self
        inheritance shape
  | .extension base (some p), h => by
      unfold collectContent
      refine .bind (failsOnly_collectBase room h List.mem_cons_self
        List.mem_cons_self inheritance shape) fun shape => ?_
      exact .ite (failsOnly_collectParticle room .once false shape p
        (h.mono (fun _ => List.mem_cons_of_mem _) fun _ => List.mem_cons_of_mem _)) (.pure _)
  | .restriction base none, h => by
      unfold collectContent
      exact failsOnly_collectBase room h List.mem_cons_self List.mem_cons_self
        .attributes shape
  | .restriction base (some p), h => by
      unfold collectContent
      refine .bind (failsOnly_collectBase room h List.mem_cons_self
        List.mem_cons_self .attributes shape) fun shape => ?_
      exact .ite (failsOnly_collectParticle room .once false shape p
        (h.mono (fun _ => List.mem_cons_of_mem _) fun _ => List.mem_cons_of_mem _)) (.pure _)
  | .simple base derivation facets, h => by
      unfold collectContent
      exact failsOnly_collectText room h derivation facets shape

theorem failsOnly_collectParticle (room : Room context v depth expand) {site : Site}
    (outer : Bounds) (nested : Bool) (shape : Shape) {location : String} : ∀ p : Particle,
      Ready context.linkage v site.scope (p.references location) p.unfolded →
      FailsOnly v context.linkage.Causes
        (collectParticle context expand site outer nested shape p)
  | ⟨least, most, term⟩, h => by
      unfold collectParticle
      dsimp only
      split
      · exact .pure _
      · next hzero =>
          rw [Particle.unfolded, if_neg (most_ne_zero hzero)] at h
          exact failsOnly_collectTerm room _ nested shape term h

theorem failsOnly_collectTerm (room : Room context v depth expand) {site : Site}
    (bounds : Bounds) (nested : Bool) (shape : Shape) {location : String} : ∀ term : Term,
      Ready context.linkage v site.scope (term.references location) term.unfolded →
      FailsOnly v context.linkage.Causes (collectTerm context expand site bounds nested shape term)
  | .element declaration, h => by
      unfold collectTerm
      refine .bind ?_ fun _ => (isQuiet_silent.addElement context site _ _ shape).failsOnly
      exact failsOnly_elementSchema room declaration h
  | .elementRef reference, h => by
      unfold collectTerm
      exact failsOnly_collectElementRef h bounds shape
  | .group group, h => by
      unfold collectTerm
      exact failsOnly_collectGroup room bounds nested shape group h
  | .groupRef reference, h => by
      unfold collectTerm
      exact failsOnly_collectGroupRef room h bounds nested shape
  | .any, _ => by
      unfold collectTerm
      exact .pure _

theorem failsOnly_collectGroup (room : Room context v depth expand) {site : Site}
    (bounds : Bounds) (nested : Bool) (shape : Shape) {location : String} : ∀ group : ModelGroup,
      Ready context.linkage v site.scope (group.references location) group.unfolded →
      FailsOnly v context.linkage.Causes
        (collectGroup context expand site bounds nested shape group)
  | ⟨.choice, particles⟩, h => by
      unfold collectGroup
      refine .ite ?_ ?_
      · exact .bind (isQuiet_silent.site_diagnose context site _).failsOnly fun _ =>
          failsOnly_collectParticles room bounds.orNone nested shape particles h
      · exact .bind (failsOnly_collectBranches room _ particles h) fun branches =>
          (isQuiet_silent.addChoice context site bounds.isRequired branches shape).failsOnly
  | ⟨.sequence, particles⟩, h => by
      unfold collectGroup
      exact failsOnly_collectParticles room bounds nested shape particles h
  | ⟨.all, particles⟩, h => by
      unfold collectGroup
      exact failsOnly_collectParticles room bounds nested shape particles h

theorem failsOnly_collectParticles (room : Room context v depth expand) {site : Site}
    (outer : Bounds) (nested : Bool) (shape : Shape) {location : String} :
    ∀ particles : List Particle,
      Ready context.linkage v site.scope (particlesReferences location particles)
        (particlesUnfolded particles) →
      FailsOnly v context.linkage.Causes
        (collectParticles context expand site outer nested shape particles)
  | [], _ => by
      unfold collectParticles
      exact .pure _
  | p :: rest, h => by
      unfold collectParticles
      exact .bind (failsOnly_collectParticle room outer nested shape p h.left)
        fun shape =>
          failsOnly_collectParticles room outer nested shape rest h.right

theorem failsOnly_collectBranches (room : Room context v depth expand) {site : Site}
    (outer : Bounds) {location : String} : ∀ particles : List Particle,
      Ready context.linkage v site.scope (particlesReferences location particles)
        (particlesUnfolded particles) →
      FailsOnly v context.linkage.Causes (collectBranches context expand site outer particles)
  | [], _ => by
      unfold collectBranches
      exact .pure _
  | p :: rest, h => by
      unfold collectBranches
      exact .bind (failsOnly_collectParticle room outer true {} p h.left) fun _ =>
        (failsOnly_collectBranches room outer rest h.right).map

theorem failsOnly_elementSchema (room : Room context v depth expand) {site : Site}
    {location : String} : ∀ element : Element,
      Ready context.linkage v site.scope (element.references location) element.unfolded →
      FailsOnly v context.linkage.Causes (elementSchema context expand site element)
  | ⟨name, _, type, nillable, default, fixed, documentation⟩, h => by
      unfold elementSchema
      exact .bind (failsOnly_elementTypeSchema room name.name type h) fun _ =>
        (isQuiet_silent.elementKeywords context (silent_spaceOf? context) site type default fixed
          documentation).failsOnly.map

theorem failsOnly_elementTypeSchema (room : Room context v depth expand) {site : Site}
    (elementName : String) {location : String} : ∀ type : ElementType,
      Ready context.linkage v site.scope (type.references location) type.unfolded →
      FailsOnly v context.linkage.Causes
        (elementTypeSchema context expand site elementName type)
  | .named name, h => by
      unfold elementTypeSchema
      exact failsOnly_typeReference h (List.mem_singleton_self _) site.location
  | .simple type, h => by
      unfold elementTypeSchema
      exact failsOnly_simpleSchema room.linked room.inside elementName true h
  | .complex type, h => by
      unfold elementTypeSchema
      exact (failsOnly_collectComplex room .everything {} type h).map
  | .any, _ => by
      unfold elementTypeSchema
      exact .pure _

end

theorem expands_expansions (hlinked : context.linkage.IsLinked) : ∀ depth : Nat,
    Expands context depth (expansions context depth)
  | 0 => by
      -- a conversion cannot be inside of more declarations than there are
      have full : ∀ {v : Visited}, Inside context.linkage v →
          context.linkage.declarations.types.length + context.linkage.declarations.groups.length +
            1 ≤ 0 + v.complex.length + v.groups.length → False := fun hi hroom => by
        have htypes := hi.length_le .complex .types rfl
        have hgroups := hi.length_le .group .groups rfl
        simp only [Expandable.of, Row.types, Row.groups] at htypes hgroups
        omega
      exact ⟨fun _ _ _ _ _ _ hi hroom _ _ _ _ => (full hi hroom).elim,
        fun _ _ _ _ _ _ hi hroom _ _ _ => (full hi hroom).elim⟩
  | depth + 1 => by
      have he := expands_expansions hlinked depth
      refine ⟨fun v site inheritance located type shape hi hroom hfile hd htype hleads => ?_,
        fun v site located bounds nested shape hi hroom hfile hd hleads => ?_⟩
      · have h := Ready.of_type hfile hd hleads
        rw [htype] at h
        exact failsOnly_collectComplex ⟨hlinked, hi, he, by omega⟩ inheritance shape type h
      · exact failsOnly_collectGroup ⟨hlinked, hi, he, by omega⟩ bounds nested shape _
          (.of_group hfile hd hleads)

theorem Room.all (hlinked : context.linkage.IsLinked) (hi : Inside context.linkage v) :
    Room context v (expansionDepth context) (allExpansions context) :=
  ⟨hlinked, hi, expands_expansions hlinked _, by rw [expansionDepth]; omega⟩

/-! ### Declarations -/

theorem failsOnly_typeDefinition (hlinked : context.linkage.IsLinked)
    (hf : context.file ∈ context.linkage.catalog.files) {type : NamedType}
    (ht : type ∈ context.file.schema.types) :
    FailsOnly {} context.linkage.Causes (typeDefinition context type) := by
  have hdeclared := hlinked.declared .types hf type ht
  unfold typeDefinition
  rcases hdef : type.definition with simple | complex
  · refine .map (failsOnly_visiting .simple .empty hdeclared .empty fun _ hi hleads => ?_)
    have h := Ready.of_type hf ht hleads
    rw [hdef] at h
    exact failsOnly_simpleSchema hlinked hi _ true h
  · refine .map (failsOnly_visiting .complex .empty hdeclared .empty fun _ hi hleads => .map ?_)
    have h := Ready.of_type hf ht hleads
    rw [hdef] at h
    exact failsOnly_collectComplex (.all hlinked hi) _ _ complex h

theorem failsOnly_groupDefinition (hlinked : context.linkage.IsLinked)
    (hf : context.file ∈ context.linkage.catalog.files) {group : NamedGroup}
    (hg : group ∈ context.file.schema.groups) :
    FailsOnly {} context.linkage.Causes (groupDefinition context group) :=
  .map (failsOnly_visiting .group .empty (hlinked.declared .groups hf group hg) .empty
    fun _ hi hleads =>
      failsOnly_collectGroup (.all hlinked hi) _ _ _ _ (.of_group hf hg hleads))

theorem failsOnly_elementProperty (hlinked : context.linkage.IsLinked)
    (hf : context.file ∈ context.linkage.catalog.files) {element : Element}
    (he : element ∈ context.file.schema.elements) :
    FailsOnly {} context.linkage.Causes (elementProperty context element) :=
  .map (failsOnly_elementSchema (.all hlinked .empty) _
    (.of_file hf (fun _ => mem_references_of_element he) fun _ _ _ _ => .empty))

/-! ### Files -/

/-- The problems of declarations are those that their conversions fail for. -/
theorem causes_of_convertEach {α : Type} {convert : α → Conversion (String × Json)}
    {Q : Problem → Prop} (as : List α) (h : ∀ a ∈ as, FailsOnly {} Q (convert a))
    {diagnostics : List Problem} {p : Problem}
    (hp : p ∈ (convertEach convert as diagnostics).errors) : Q p := by
  induction as generalizing diagnostics with
  | nil => exact absurd hp List.not_mem_nil
  | cons a rest ih =>
      rw [List.forall_mem_cons] at h
      have ha := (h.1 { diagnostics } rfl).2
      rw [convertEach_cons] at hp
      generalize run (convert a) { diagnostics } = r at ha hp
      rcases r with ⟨q | entry, t⟩
      · rcases List.mem_cons.1 hp with rfl | hp
        · exact ha _ rfl
        · exact ih h.2 hp
      · exact ih h.2 hp

/-- Whatever is fatal about the conversion of a file has one of the causes. -/
theorem causes_of_convertFile (hlinked : context.linkage.IsLinked)
    (hf : context.file ∈ context.linkage.catalog.files) {p : Problem}
    (hp : p ∈ (convertFile context).2) (hfatal : p.isFatal = true) :
    context.linkage.Causes p := by
  have ht := convertEach_candid (isClosed_candid.typeDefinition context)
    context.file.schema.types (fun _ h => absurd h List.not_mem_nil)
  have hg := convertEach_candid (isClosed_candid.groupDefinition context)
    (context.file.schema.groups.filter fun g => context.linkage.isReused g.name) ht.2
  have he := convertEach_candid (isClosed_candid.elementProperty context)
    context.file.schema.elements hg.2
  simp only [convertFile, List.mem_append] at hp
  rcases hp with ((hp | hp) | hp) | hp
  · exact causes_of_convertEach _ (fun _ => failsOnly_typeDefinition hlinked hf) hp
  · exact causes_of_convertEach _ (fun _ hm =>
      failsOnly_groupDefinition hlinked hf (List.mem_filter.1 hm).1) hp
  · exact causes_of_convertEach _ (fun _ => failsOnly_elementProperty hlinked hf) hp
  · exact absurd ((he.2 p hp).symm.trans hfatal) Bool.false_ne_true

end Conversion

end Crosswalk
