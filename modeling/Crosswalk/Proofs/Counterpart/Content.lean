import Crosswalk.Proofs.Counterpart.Root
import Crosswalk.Proofs.Conversion.File
import Crosswalk.Proofs.Conversion.Descent

/-!
# Content and documents of twins

A complex type, a model group, an element is converted alike for twins. So each declaration of a
file has the same outcome as it has in a twin of the file, and if the two list the same declarations
the conversions of both files are the same.
-/

namespace Crosswalk

namespace Conversion

open Declarations

variable {context context' : Context} {v : Visited} {n n' : Nat} {site site' : Site}
  {location : String} {refs : List Reference}

/-- Complex types and model groups of which there is room for so many on either side are expanded
alike. -/
structure ContentAlike (context context' : Context) (n n' : Nat)
    (expand expand' : Expansions) : Prop where
  base : ∀ (v : Visited) (site site' : Site) (inheritance : Inheritance)
    (a b : Located NamedType) (type : ComplexType) (shape : Shape), Inside context.linkage v →
    context.linkage.declarations.types.length + context.linkage.declarations.groups.length + 1 ≤
      n + v.complex.length + v.groups.length →
    context'.linkage.declarations.types.length + context'.linkage.declarations.groups.length + 1 ≤
      n' + v.complex.length + v.groups.length →
    site.Beside context context' site' → context.linkage.Stands context'.linkage a b →
    a.declaration ∈ a.file.schema.types → a.declaration.definition = .complex type →
    SameFrom v (expand.base site inheritance a type shape)
      (expand'.base site' inheritance b type shape)
  group : ∀ (v : Visited) (site site' : Site) (a b : Located NamedGroup) (bounds : Bounds)
    (nested : Bool) (shape : Shape), Inside context.linkage v →
    context.linkage.declarations.types.length + context.linkage.declarations.groups.length + 1 ≤
      n + v.complex.length + v.groups.length →
    context'.linkage.declarations.types.length + context'.linkage.declarations.groups.length + 1 ≤
      n' + v.complex.length + v.groups.length →
    site.Beside context context' site' → context.linkage.Stands context'.linkage a b →
    a.declaration ∈ a.file.schema.groups →
    SameFrom v (expand.group site a bounds nested shape) (expand'.group site' b bounds nested shape)

/-- There is room on both sides for every type and group that the conversions are not inside of. -/
structure ContentRooms (context context' : Context) (v : Visited) (n n' : Nat)
    (expand expand' : Expansions) : Prop where
  same : context.Corresponds context'
  inside : Inside context.linkage v
  alike : ContentAlike context context' n n' expand expand'
  fits : context.linkage.declarations.types.length + context.linkage.declarations.groups.length ≤
    n + v.complex.length + v.groups.length
  fits' : context'.linkage.declarations.types.length +
    context'.linkage.declarations.groups.length ≤ n' + v.complex.length + v.groups.length

/-! ### Bases -/

section

variable {expand expand' : Expansions}
  (rooms : ContentRooms context context' v n n' expand expand')
  (hsite : site.Beside context context' site')
include rooms hsite

/-- A complex type that was found is expanded alike. -/
theorem sameFrom_expandBase {base : QName} (hb : base.isBuiltin = false)
    {a b : Located NamedType} {type : ComplexType}
    (ha : context.linkage.type? site.scope base = some a)
    (hab : context.linkage.Stands context'.linkage a b)
    (htype : a.declaration.definition = .complex type) (inheritance : Inheritance)
    (shape : Shape) :
    SameFrom v
      (visiting .complex site.scope a.declaration.name
        (expand.base site inheritance a type shape))
      (visiting .complex site'.scope a.declaration.name
        (expand'.base site' inheritance b type shape)) := by
  have ha : context.linkage.lookup? .types site.scope base = some a := ha
  obtain ⟨-, hd, -⟩ := rooms.same.linkage.linked.found ha
  refine .visiting hsite.scope.filename fun hn => ?_
  exact rooms.alike.base _ site site' inheritance a b type shape
    (rooms.inside.enter (rooms.same.linkage.linked.contains (.inl hb) ha) hn)
    (fits_enter_content (.inl rfl) rooms.fits) (fits_enter_content (.inl rfl) rooms.fits') hsite hab
    hd htype

theorem sameFrom_collectBase {base : QName}
    (hs : context.linkage.Sees context'.linkage site.scope site'.scope refs)
    (hr : ⟨.type, base, location⟩ ∈ refs) (inheritance : Inheritance) (shape : Shape) :
    SameFrom v (collectBase context expand site inheritance base shape)
      (collectBase context' expand' site' inheritance base shape) := by
  have diagnosed : ∀ construct, SameFrom v
      (site.diagnose context construct >>= fun _ => Pure.pure shape)
      (site'.diagnose context' construct >>= fun _ => Pure.pure shape) := fun construct =>
    .map _ (.of_eq (isClosed_steady.site_diagnose context site _)
      (rooms.same.site_diagnose hsite construct))
  unfold collectBase
  refine .ite (fun _ => .ite (fun _ => .pure shape) fun _ => diagnosed _) fun hb => ?_
  have hb := Bool.eq_false_iff.2 hb
  rw [hsite.location]
  refine .found_bind hsite.scope.filename (rooms.same.linkage.type? hs hr hb) fun a b ha hab => ?_
  rw [← hab.declaration]
  split
  · next type htype => exact sameFrom_expandBase rooms hsite hb ha hab htype inheritance shape
  · exact diagnosed _

/-! ### Simple content -/

theorem sameFrom_narrowText {base : QName} (hb : base.isBuiltin = false)
    {a b : Located NamedType} (ha : context.linkage.type? site.scope base = some a)
    (hab : context.linkage.Stands context'.linkage a b) (facets : List Facet) (shape : Shape) :
    SameFrom v (narrowText context site a facets shape)
      (narrowText context' site' b facets shape) := by
  have hrel := textRoot?_found rooms.same hb ha hab
  unfold narrowText
  rw [← hab.declaration, hsite.location]
  generalize textRoot? context (chainLength context) a.file a.declaration.name = found,
    textRoot? context' (chainLength context') b.file a.declaration.name = found' at hrel
  cases hrel with
  | none =>
      exact .map _ (.of_eq (isClosed_steady.site_diagnose context site _)
        (rooms.same.site_diagnose hsite _))
  | @some x y hxy =>
      obtain ⟨scope, root⟩ := x
      obtain ⟨scope', root'⟩ := y
      obtain ⟨htwins, hname, hsees⟩ := hxy
      dsimp only at htwins hname hsees ⊢
      subst hname
      have hs : context.linkage.Sees context'.linkage scope scope'
          ((SimpleType.restriction (.named root) facets).references "") :=
        .singleton hsees ""
      exact .map _ (sameFrom_simpleSchema rooms.same rooms.inside htwins hs _ false)

omit rooms in
theorem sameFrom_textSchema (h : context.Corresponds context') (hi : Inside context.linkage v)
    {base : QName} (hs : context.linkage.Sees context'.linkage site.scope site'.scope
      [⟨.type, base, location⟩]) (facets : List Facet) :
    SameFrom v (textSchema context site base facets) (textSchema context' site' base facets) := by
  have hrestriction : context.linkage.Sees context'.linkage site.scope site'.scope
      ((SimpleType.restriction (.named base) facets).references location) := hs
  unfold textSchema
  rw [hsite.location]
  exact .ite (fun _ => sameFrom_typeReference h hsite.scope hs (List.mem_singleton_self _) _)
    fun _ => sameFrom_simpleSchema h hi hsite.scope hrestriction _ true

omit rooms hsite in
/-- Simple content, with the lookup of its base in front. -/
theorem collectText_eq (context : Context) (expand : Expansions) (site : Site) (base : QName)
    (derivation : Derivation) (facets : List Facet) (shape : Shape) :
    collectText context expand site base derivation facets shape =
      let facets := if derivation = .restriction then facets else []
      let character := textSchema context site base facets >>= fun text =>
        pure { shape with text := some text }
      if base.isBuiltin then character
      else
        found site.scope site.location base (context.linkage.type? site.scope base) >>=
          fun located => match located.declaration.definition with
            | .complex type => do
              let shape ← visiting .complex site.scope located.declaration.name
                (expand.base site .everything located type shape)
              if facets.isEmpty then return shape
              else narrowText context site located facets shape
            | .simple _ => character := by
  unfold collectText complexBase?
  cases base.isBuiltin with
  | true => rfl
  | false =>
      simp only [Bool.false_eq_true, if_false, bind_assoc]
      refine bind_congr fun located => ?_
      cases located.declaration.definition with
      | simple type => rfl
      | complex type => rfl

theorem sameFrom_collectText {base : QName}
    (hs : context.linkage.Sees context'.linkage site.scope site'.scope [⟨.type, base, location⟩])
    (derivation : Derivation) (facets : List Facet) (shape : Shape) :
    SameFrom v (collectText context expand site base derivation facets shape)
      (collectText context' expand' site' base derivation facets shape) := by
  rw [collectText_eq, collectText_eq]
  dsimp only
  have character := SameFrom.map (fun text => { shape with text := some text })
    (sameFrom_textSchema hsite rooms.same rooms.inside hs
      (if derivation = .restriction then facets else []))
  refine .ite (fun _ => character) fun hb => ?_
  have hb := Bool.eq_false_iff.2 hb
  rw [hsite.location]
  refine .found_bind hsite.scope.filename
    (rooms.same.linkage.type? hs (List.mem_singleton_self _) hb) fun a b ha hab => ?_
  rw [← hab.declaration]
  split
  · next type htype =>
      refine .bind (sameFrom_expandBase rooms hsite hb ha hab htype .everything shape)
        fun shape => ?_
      exact .ite (fun _ => .pure shape) fun _ =>
        sameFrom_narrowText rooms hsite hb ha hab _ shape
  · exact character

/-! ### Content models -/

theorem sameFrom_collectGroupRef {reference : QName}
    (hs : context.linkage.Sees context'.linkage site.scope site'.scope
      [⟨.group, reference, location⟩]) (bounds : Bounds) (nested : Bool) (shape : Shape) :
    SameFrom v (collectGroupRef context expand site reference bounds nested shape)
      (collectGroupRef context' expand' site' reference bounds nested shape) := by
  unfold collectGroupRef
  rw [hsite.location]
  refine .found_bind hsite.scope.filename
    (rooms.same.linkage.group? hs (List.mem_singleton_self _)) fun a b ha hab => ?_
  have ha : context.linkage.lookup? .groups site.scope reference = some a := ha
  obtain ⟨-, hd, -⟩ := rooms.same.linkage.linked.found ha
  have hc : context.linkage.declarations.contains .group a.declaration.name = true :=
    rooms.same.linkage.linked.contains (.inr (by decide)) ha
  dsimp only
  rw [← hab.declaration, ← rooms.same.linkage.reuses _ hc]
  refine .visiting hsite.scope.filename fun hn => ?_
  have hi : Inside context.linkage (Expandable.group.set v (a.declaration.name :: v.groups)) :=
    rooms.inside.enter hc hn
  have hexpand := fun bounds nested shape =>
    rooms.alike.group _ site site' a b bounds nested shape hi
      (fits_enter_content (.inr rfl) rooms.fits) (fits_enter_content (.inr rfl) rooms.fits')
      hsite hab hd
  refine .ite (fun _ => .bind (hexpand .once true {}) fun members => ?_)
    fun _ => hexpand bounds nested shape
  rw [rooms.same.linkTo hab.twins]
  exact .pure _

omit rooms in
theorem sameFrom_collectElementRef (h : context.Corresponds context') {reference : QName}
    (hs : context.linkage.Sees context'.linkage site.scope site'.scope
      [⟨.element, reference, location⟩]) (bounds : Bounds) (shape : Shape) :
    SameFrom v (collectElementRef context site reference bounds shape)
      (collectElementRef context' site' reference bounds shape) := by
  unfold collectElementRef
  rw [hsite.location]
  refine .found_bind hsite.scope.filename
    (h.linkage.element? hs (List.mem_singleton_self _)) fun a b _ hab => ?_
  dsimp only
  rw [h.propertyName hab.twins, h.linkTo hab.twins, ← hab.declaration]
  exact .of_eq (isClosed_steady.addElement context site _ _ shape)
    (h.addElement hsite _ _ shape)

omit rooms in
theorem sameFrom_elementKeywords (h : context.Corresponds context')
    (hi : Inside context.linkage v) {type : ElementType}
    (hs : context.linkage.Sees context'.linkage site.scope site'.scope (type.references location))
    (default fixed documentation : Option String) :
    SameFrom v (elementKeywords context site type default fixed documentation)
      (elementKeywords context' site' type default fixed documentation) := by
  unfold elementKeywords
  refine .ite (fun _ => .pure _) fun _ => ?_
  refine .bind (sameFrom_literalSpace? h hi hsite.scope hs) fun space => ?_
  cases space with
  | some space => exact .pure _
  | none =>
      exact .map _ (.of_eq (isClosed_steady.site_diagnose context site _)
        (h.site_diagnose hsite _))

end

mutual

theorem sameFrom_collectComplex {expand expand' : Expansions} {site site' : Site}
    (rooms : ContentRooms context context' v n n' expand expand')
    (hsite : site.Beside context context' site') {location : String} (inheritance : Inheritance)
    (shape : Shape) : ∀ type : ComplexType,
      context.linkage.Sees context'.linkage site.scope site'.scope
        (type.references location) →
      SameFrom v (collectComplex context expand site inheritance shape type)
        (collectComplex context' expand' site' inheritance shape type)
  | ⟨content, attributes, anyAttribute, mixed⟩, hs => by
      unfold collectComplex
      have collected := SameFrom.bind
        (sameFrom_collectContent rooms hsite inheritance shape content hs.left) fun shape =>
          (sameFrom_collectAttributes rooms.same rooms.inside hsite hs.right shape).map
            fun s => if anyAttribute then { s with isOpen := true } else s
      refine .ite (fun _ => .bind ?_ fun _ => collected) fun _ => collected
      exact .of_eq (isClosed_steady.site_diagnose context site _)
        (rooms.same.site_diagnose hsite _)

theorem sameFrom_collectContent {expand expand' : Expansions} {site site' : Site}
    (rooms : ContentRooms context context' v n n' expand expand')
    (hsite : site.Beside context context' site') {location : String} (inheritance : Inheritance)
    (shape : Shape) : ∀ content : Content,
      context.linkage.Sees context'.linkage site.scope site'.scope
        (content.references location) →
      SameFrom v (collectContent context expand site inheritance shape content)
        (collectContent context' expand' site' inheritance shape content)
  | .empty, _ => by
      unfold collectContent
      exact .pure shape
  | .particle p, hs => by
      unfold collectContent
      exact .ite (fun _ => sameFrom_collectParticle rooms hsite .once false shape p hs)
        fun _ => .pure shape
  | .extension base none, hs => by
      unfold collectContent
      exact sameFrom_collectBase rooms hsite hs List.mem_cons_self inheritance shape
  | .extension base (some p), hs => by
      unfold collectContent
      refine .bind (sameFrom_collectBase rooms hsite hs List.mem_cons_self inheritance shape)
        fun shape => ?_
      exact .ite (fun _ => sameFrom_collectParticle rooms hsite .once false shape p hs.tail)
        fun _ => .pure shape
  | .restriction base none, hs => by
      unfold collectContent
      exact sameFrom_collectBase rooms hsite hs List.mem_cons_self .attributes shape
  | .restriction base (some p), hs => by
      unfold collectContent
      refine .bind (sameFrom_collectBase rooms hsite hs List.mem_cons_self .attributes shape)
        fun shape => ?_
      exact .ite (fun _ => sameFrom_collectParticle rooms hsite .once false shape p hs.tail)
        fun _ => .pure shape
  | .simple base derivation facets, hs => by
      unfold collectContent
      exact sameFrom_collectText rooms hsite hs derivation facets shape

theorem sameFrom_collectParticle {expand expand' : Expansions} {site site' : Site}
    (rooms : ContentRooms context context' v n n' expand expand')
    (hsite : site.Beside context context' site') {location : String} (outer : Bounds)
    (nested : Bool) (shape : Shape) : ∀ p : Particle,
      context.linkage.Sees context'.linkage site.scope site'.scope (p.references location) →
      SameFrom v (collectParticle context expand site outer nested shape p)
        (collectParticle context' expand' site' outer nested shape p)
  | ⟨least, most, term⟩, hs => by
      unfold collectParticle
      exact .ite (fun _ => .pure shape) fun _ =>
        sameFrom_collectTerm rooms hsite _ nested shape term hs

theorem sameFrom_collectTerm {expand expand' : Expansions} {site site' : Site}
    (rooms : ContentRooms context context' v n n' expand expand')
    (hsite : site.Beside context context' site') {location : String} (bounds : Bounds)
    (nested : Bool) (shape : Shape) : ∀ term : Term,
      context.linkage.Sees context'.linkage site.scope site'.scope (term.references location) →
      SameFrom v (collectTerm context expand site bounds nested shape term)
        (collectTerm context' expand' site' bounds nested shape term)
  | .element declaration, hs => by
      unfold collectTerm
      dsimp only
      rw [hsite.location, rooms.same.propertyName hsite.scope]
      refine .bind (sameFrom_elementSchema rooms hsite.move declaration hs) fun item => ?_
      exact .of_eq (isClosed_steady.addElement context site _ _ shape)
        (rooms.same.addElement hsite _ _ shape)
  | .elementRef reference, hs => by
      unfold collectTerm
      exact sameFrom_collectElementRef hsite rooms.same hs bounds shape
  | .group group, hs => by
      unfold collectTerm
      exact sameFrom_collectGroup rooms hsite bounds nested shape group hs
  | .groupRef reference, hs => by
      unfold collectTerm
      exact sameFrom_collectGroupRef rooms hsite hs bounds nested shape
  | .any, _ => by
      unfold collectTerm
      exact .pure _

theorem sameFrom_collectGroup {expand expand' : Expansions} {site site' : Site}
    (rooms : ContentRooms context context' v n n' expand expand')
    (hsite : site.Beside context context' site') {location : String} (bounds : Bounds)
    (nested : Bool) (shape : Shape) : ∀ group : ModelGroup,
      context.linkage.Sees context'.linkage site.scope site'.scope (group.references location) →
      SameFrom v (collectGroup context expand site bounds nested shape group)
        (collectGroup context' expand' site' bounds nested shape group)
  | ⟨.choice, particles⟩, hs => by
      unfold collectGroup
      refine .ite (fun _ => ?_) fun _ => ?_
      · exact .bind (.of_eq (isClosed_steady.site_diagnose context site _)
          (rooms.same.site_diagnose hsite _)) fun _ =>
            sameFrom_collectParticles rooms hsite bounds.orNone nested shape particles hs
      · exact .bind (sameFrom_collectBranches rooms hsite _ particles hs) fun branches =>
          .of_eq (isClosed_steady.addChoice context site _ branches shape)
            (rooms.same.addChoice hsite _ branches shape)
  | ⟨.sequence, particles⟩, hs => by
      unfold collectGroup
      exact sameFrom_collectParticles rooms hsite bounds nested shape particles hs
  | ⟨.all, particles⟩, hs => by
      unfold collectGroup
      exact sameFrom_collectParticles rooms hsite bounds nested shape particles hs

theorem sameFrom_collectParticles {expand expand' : Expansions} {site site' : Site}
    (rooms : ContentRooms context context' v n n' expand expand')
    (hsite : site.Beside context context' site') {location : String} (outer : Bounds)
    (nested : Bool) (shape : Shape) : ∀ particles : List Particle,
      context.linkage.Sees context'.linkage site.scope site'.scope
        (particlesReferences location particles) →
      SameFrom v (collectParticles context expand site outer nested shape particles)
        (collectParticles context' expand' site' outer nested shape particles)
  | [], _ => by
      unfold collectParticles
      exact .pure shape
  | p :: rest, hs => by
      unfold collectParticles
      exact .bind (sameFrom_collectParticle rooms hsite outer nested shape p hs.left)
        fun shape => sameFrom_collectParticles rooms hsite outer nested shape rest hs.right

theorem sameFrom_collectBranches {expand expand' : Expansions} {site site' : Site}
    (rooms : ContentRooms context context' v n n' expand expand')
    (hsite : site.Beside context context' site') {location : String} (outer : Bounds) :
    ∀ particles : List Particle,
      context.linkage.Sees context'.linkage site.scope site'.scope
        (particlesReferences location particles) →
      SameFrom v (collectBranches context expand site outer particles)
        (collectBranches context' expand' site' outer particles)
  | [], _ => by
      unfold collectBranches
      exact .pure []
  | p :: rest, hs => by
      unfold collectBranches
      exact .bind (sameFrom_collectParticle rooms hsite outer true {} p hs.left) fun branch =>
        .map _ (sameFrom_collectBranches rooms hsite outer rest hs.right)

theorem sameFrom_elementSchema {expand expand' : Expansions} {site site' : Site}
    (rooms : ContentRooms context context' v n n' expand expand')
    (hsite : site.Beside context context' site') {location : String} : ∀ element : Element,
      context.linkage.Sees context'.linkage site.scope site'.scope
        (element.references location) →
      SameFrom v (elementSchema context expand site element)
        (elementSchema context' expand' site' element)
  | ⟨name, _, type, nillable, default, fixed, documentation⟩, hs => by
      unfold elementSchema
      refine .bind (sameFrom_elementTypeSchema rooms hsite name.name type hs) fun base => ?_
      exact .map (fun extras =>
          if nillable then orNull (withKeywords base extras) else withKeywords base extras)
        (sameFrom_elementKeywords hsite rooms.same rooms.inside hs default fixed documentation)

theorem sameFrom_elementTypeSchema {expand expand' : Expansions} {site site' : Site}
    (rooms : ContentRooms context context' v n n' expand expand')
    (hsite : site.Beside context context' site') {location : String} (elementName : String) :
    ∀ type : ElementType,
      context.linkage.Sees context'.linkage site.scope site'.scope
        (type.references location) →
      SameFrom v (elementTypeSchema context expand site elementName type)
        (elementTypeSchema context' expand' site' elementName type)
  | .named name, hs => by
      unfold elementTypeSchema
      rw [hsite.location]
      exact sameFrom_typeReference rooms.same hsite.scope hs (List.mem_singleton_self _) _
  | .simple type, hs => by
      unfold elementTypeSchema
      exact sameFrom_simpleSchema rooms.same rooms.inside hsite.scope hs elementName true
  | .complex type, hs => by
      unfold elementTypeSchema
      refine .bind (sameFrom_collectComplex rooms hsite .everything {} type hs) fun shape => ?_
      rw [rooms.same.objectSchema]
      exact .pure _
  | .any, _ => by
      unfold elementTypeSchema
      exact .pure _

end

section

variable (h : context.Corresponds context')
include h

theorem contentAlike_expansions : ∀ n n' : Nat,
    ContentAlike context context' n n' (expansions context n) (expansions context' n')
  | 0, _ => by
      -- a conversion cannot be inside of more declarations than there are
      have full : ∀ {v : Visited}, Inside context.linkage v →
          context.linkage.declarations.types.length + context.linkage.declarations.groups.length +
            1 ≤ 0 + v.complex.length + v.groups.length → False := fun hi hfits => by
        have htypes := hi.length_le .complex .types rfl
        have hgroups := hi.length_le .group .groups rfl
        simp only [Expandable.of, Row.types, Row.groups] at htypes hgroups
        omega
      exact ⟨fun _ _ _ _ _ _ _ _ hi hfits _ _ _ _ _ => (full hi hfits).elim,
        fun _ _ _ _ _ _ _ _ hi hfits _ _ _ _ => (full hi hfits).elim⟩
  | _ + 1, 0 => by
      have full : ∀ {v : Visited}, Inside context.linkage v →
          context'.linkage.declarations.types.length +
            context'.linkage.declarations.groups.length + 1 ≤
              0 + v.complex.length + v.groups.length → False := fun hi hfits => by
        have htypes := (h.linkage.inside hi).length_le .complex .types rfl
        have hgroups := (h.linkage.inside hi).length_le .group .groups rfl
        simp only [Expandable.of, Row.types, Row.groups] at htypes hgroups
        omega
      exact ⟨fun _ _ _ _ _ _ _ _ hi _ hfits _ _ _ _ => (full hi hfits).elim,
        fun _ _ _ _ _ _ _ _ hi _ hfits _ _ _ => (full hi hfits).elim⟩
  | n + 1, n' + 1 => by
      have ih := contentAlike_expansions n n'
      refine ⟨fun v site site' inheritance a b type shape hi hfits hfits' hsite hab hd htype => ?_,
        fun v site site' a b bounds nested shape hi hfits hfits' hsite hab hd => ?_⟩
      · have hs := h.linkage.sees_type hab hd
        rw [htype] at hs
        exact sameFrom_collectComplex ⟨h, hi, ih, by omega, by omega⟩ (hsite.enter hab.twins)
          inheritance shape type hs
      · unfold expansions
        dsimp only
        rw [← hab.declaration]
        exact sameFrom_collectGroup ⟨h, hi, ih, by omega, by omega⟩ (hsite.enter hab.twins) bounds
          nested shape _ (h.linkage.sees_group hab hd)

theorem ContentRooms.all (hi : Inside context.linkage v) :
    ContentRooms context context' v (expansionDepth context) (expansionDepth context')
      (allExpansions context) (allExpansions context') :=
  ⟨h, hi, contentAlike_expansions h _ _, by rw [expansionDepth]; omega,
    by rw [expansionDepth]; omega⟩

/-! ### Declarations -/

omit h in
/-- A conversion from the outside is inside of the declaration that it has entered. -/
theorem inside_entered (kind : Expandable) {l : Linkage} {q : QName}
    (hc : l.declarations.contains kind.declares q = true) :
    Inside l (kind.set {} (q :: kind.of {})) :=
  Inside.empty.enter hc (by cases kind <;> exact List.not_mem_nil)

theorem sameFrom_typeDefinition {type : NamedType} (ht : type ∈ context.file.schema.types) :
    SameFrom {} (typeDefinition context type) (typeDefinition context' type) := by
  have hc := h.linkage.linked.declared .types h.file.left type ht
  have hs : context.linkage.Sees context'.linkage context.file context'.file
      (type.definition.references ("type " ++ type.name.name)) :=
    (h.linkage.sees h.file).mono fun _ => mem_references_of_type ht
  unfold typeDefinition
  rcases hdef : type.definition with simple | complex
  · rw [hdef] at hs
    refine .map _ (.visiting h.file.filename fun _ => ?_)
    exact sameFrom_simpleSchema h (inside_entered .simple hc) h.file hs _ true
  · rw [hdef] at hs
    refine .map _ (.visiting h.file.filename fun _ => ?_)
    refine .bind (sameFrom_collectComplex (.all h (inside_entered .complex hc)) (h.beside _) _ _
      complex hs) fun shape => ?_
    rw [h.objectSchema]
    exact .pure _

theorem sameFrom_groupDefinition {group : NamedGroup}
    (hg : group ∈ context.file.schema.groups) :
    SameFrom {} (groupDefinition context group) (groupDefinition context' group) := by
  have hc := h.linkage.linked.declared .groups h.file.left group hg
  have hs : context.linkage.Sees context'.linkage context.file context'.file
      (group.group.references ("group " ++ group.name.name)) :=
    (h.linkage.sees h.file).mono fun _ => mem_references_of_group hg
  unfold groupDefinition
  dsimp only
  rw [h.text]
  exact .map _ (.visiting h.file.filename fun _ =>
    sameFrom_collectGroup (.all h (inside_entered .group hc)) (h.beside _) _ _ _ _ hs)

theorem sameFrom_elementProperty {element : Element}
    (he : element ∈ context.file.schema.elements) :
    SameFrom {} (elementProperty context element) (elementProperty context' element) :=
  .map _ (sameFrom_elementSchema (.all h .empty) (h.beside _) element
    ((h.linkage.sees h.file).mono fun _ => mem_references_of_element he))

/-! ### Files -/

omit h in
/-- Conversions that are the same from the outside do the same for all declarations. -/
theorem convertEach_same {α : Type} {convert convert' : α → Conversion (String × Json)}
    (as : List α) (hsame : ∀ a ∈ as, SameFrom {} (convert a) (convert' a))
    (diagnostics : List Problem) :
    convertEach convert as diagnostics = convertEach convert' as diagnostics := by
  induction as generalizing diagnostics with
  | nil => rfl
  | cons a rest ih =>
      rw [List.forall_mem_cons] at hsame
      rw [convertEach_cons, convertEach_cons, (hsame.1 { diagnostics } rfl).1]
      simp only [ih hsame.2]

/-- A group of the file is written into its document if it is written into that of the twin. -/
theorem isReused_same {group : NamedGroup} (hg : group ∈ context.file.schema.groups) :
    context.linkage.isReused group.name = context'.linkage.isReused group.name :=
  h.linkage.reuses _ (h.linkage.linked.declared .groups h.file.left group hg)

/-- Twins with the same declarations are converted alike. -/
theorem convertFile_same (htypes : context.file.schema.types = context'.file.schema.types)
    (hgroups : context.file.schema.groups = context'.file.schema.groups)
    (helements : context.file.schema.elements = context'.file.schema.elements) :
    convertFile context = convertFile context' := by
  have hreused : (context.file.schema.groups.filter fun g => context.linkage.isReused g.name) =
      context.file.schema.groups.filter fun g => context'.linkage.isReused g.name :=
    List.filter_congr fun group hg => isReused_same h hg
  have htypesSame : convertEach (typeDefinition context) context.file.schema.types =
      convertEach (typeDefinition context') context.file.schema.types :=
    funext (convertEach_same _ fun type ht => sameFrom_typeDefinition h ht)
  have hgroupsSame : convertEach (groupDefinition context) (reusedGroups context) =
      convertEach (groupDefinition context') (reusedGroups context) :=
    funext (convertEach_same _ fun group hg =>
      sameFrom_groupDefinition h (List.mem_filter.1 hg).1)
  have helementsSame : convertEach (elementProperty context) context.file.schema.elements =
      convertEach (elementProperty context') context.file.schema.elements :=
    funext (convertEach_same _ fun element he => sameFrom_elementProperty h he)
  rw [reusedGroups, hreused] at hgroupsSame
  unfold convertFile
  simp only [htypesSame, helementsSame, hreused, hgroupsSame, ← htypes, ← hgroups, ← helements]

end

end Conversion

end Crosswalk
