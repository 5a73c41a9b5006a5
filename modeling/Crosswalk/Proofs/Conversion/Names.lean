import Crosswalk.Proofs.Content.Roster
import Crosswalk.Proofs.Conversion.Both
import Crosswalk.Proofs.Inlining.Attributes
import Crosswalk.Proofs.Linkage.Resolution
import Crosswalk.Proofs.Schema.Labels

/-!
# One name for a property

The property of an element or attribute is named by the prefixes of the file that declares it and,
if that file binds none, by those of the file whose document is made. Where this comes to the same
for two documents, whatever content is collected for both of them has the same names.
-/

namespace Crosswalk

/-- The property that an element or attribute of `scope` becomes. -/
def Label.property (context : Conversion.Context) (scope : File) (label : Label) : String :=
  Conversion.propertyName context scope label.name label.qualified

namespace Conversion

open Shape

/-- Documents of one batch in which everything that is declared has the same name. -/
structure NamesAlike (context context' : Context) : Prop where
  linkage : context.linkage = context'.linkage
  linked : context.linkage.IsLinked
  property : ∀ scope ∈ context.linkage.catalog.files, ∀ label ∈ scope.schema.labels,
    label.property context scope = label.property context' scope

section

variable {context context' : Context} {scope : File} (location location' : String) {s s' : Shape}

theorem both_addElement (name : String) {slot slot' : Slot}
    (ha : slot.isAttribute = slot'.isAttribute) (hs : s.SameRoster s') :
    Both (addElement context ⟨scope, location⟩ name slot s)
      (addElement context' ⟨scope, location'⟩ name slot' s') SameRoster := by
  refine .of_does (does_addElement _ _ _ _ _) (does_addElement _ _ _ _ _) ?_
  rw [SameRoster, roster_addElement s Slot.isJoin_andThen, roster_addElement s' Slot.isJoin_andThen,
    hs, ha]

theorem both_addAttribute (name : String) {slot slot' : Slot} (ha : slot.isAttribute = true)
    (ha' : slot'.isAttribute = true) (hs : s.SameRoster s') :
    Both (addAttribute context ⟨scope, location⟩ name slot s)
      (addAttribute context' ⟨scope, location'⟩ name slot' s') SameRoster := by
  refine .of_does (does_addAttribute _ _ _ _ _) (does_addAttribute _ _ _ _ _) ?_
  rw [SameRoster, roster_addAttribute? s name ha, roster_addAttribute? s' name ha', hs]

theorem both_addChoice (obliged obliged' : Bool) {branches branches' : List Shape}
    (hb : branches.map roster = branches'.map roster) (hs : s.SameRoster s') :
    Both (addChoice context ⟨scope, location⟩ obliged branches s)
      (addChoice context' ⟨scope, location'⟩ obliged' branches' s') SameRoster :=
  .of_does (does_addChoice _ _ _ _ _) (does_addChoice _ _ _ _ _)
    (hs.withChoice hb obliged obliged')

end

/-! ### Attributes -/

variable {context context' : Context} {scope : File} {s s' : Shape}

/-- Attribute groups are expanded to the same names. -/
def ExpandUsesAlike (context : Context) (expand expand' : AttributeExpansion) : Prop :=
  ∀ (location location' : String) (located : Located AttributeGroup) {s s' : Shape},
    located.file ∈ context.linkage.catalog.files →
    usesLabels located.declaration.attributes ⊆ located.file.schema.labels → s.SameRoster s' →
    Both (expand ⟨located.file, location⟩ located s) (expand' ⟨located.file, location'⟩ located s')
      SameRoster

section

variable (h : NamesAlike context context') {expand expand' : AttributeExpansion}
  (he : ExpandUsesAlike context expand expand') (hf : scope ∈ context.linkage.catalog.files)
  (location location' : String)
include h he hf

theorem both_collectUse (hs : s.SameRoster s') : ∀ use : AttributeUse,
    use.labels ⊆ scope.schema.labels →
    Both (collectUse context expand ⟨scope, location⟩ s use)
      (collectUse context' expand' ⟨scope, location'⟩ s' use) SameRoster
  | .declared declaration use, hl => by
      have hname : propertyName context scope declaration.name declaration.qualified =
          propertyName context' scope declaration.name declaration.qualified :=
        h.property scope hf declaration.label (hl List.mem_cons_self)
      unfold collectUse
      dsimp only
      rw [hname]
      exact .ite (fun _ => .pure (hs.removeAttribute _)) fun _ => .after fun _ _ =>
        both_addAttribute location location' _ rfl rfl hs
  | .reference reference use default fixed, _ => by
      unfold collectUse
      rw [← h.linkage]
      refine .bind .found ?_
      rintro located _ ⟨rfl, hlocated⟩
      have hlocated : context.linkage.lookup? .attributes scope reference = some located := hlocated
      obtain ⟨hfile, hd, -⟩ := h.linked.found hlocated
      have hname : propertyName context located.file located.declaration.name
            located.declaration.qualified =
          propertyName context' located.file located.declaration.name
            located.declaration.qualified :=
        h.property located.file hfile located.declaration.label (Schema.label_of_attribute hd)
      dsimp only
      rw [hname]
      exact .ite (fun _ => .pure (hs.removeAttribute _)) fun _ => .after fun _ _ =>
        both_addAttribute location location' _ rfl rfl hs
  | .group reference, _ => by
      unfold collectUse
      rw [← h.linkage]
      refine .bind .found ?_
      rintro located _ ⟨rfl, hlocated⟩
      have hlocated : context.linkage.lookup? .attributeGroups scope reference = some located :=
        hlocated
      obtain ⟨hfile, hd, -⟩ := h.linked.found hlocated
      refine .bind (.visiting (he location location' located hfile
        (Schema.labels_of_attributeGroup hd) hs)) fun t t' ht => .pure ?_
      split
      · exact ht
      · exact ht

theorem both_collectUses : ∀ (uses : List AttributeUse) {s s' : Shape}, s.SameRoster s' →
    usesLabels uses ⊆ scope.schema.labels →
    Both (collectUses context expand ⟨scope, location⟩ s uses)
      (collectUses context' expand' ⟨scope, location'⟩ s' uses) SameRoster
  | [], _, _, hs, _ => .pure hs
  | use :: rest, _, _, hs, hl => by
      obtain ⟨huse, hrest⟩ := List.append_subset.1 hl
      exact .bind (both_collectUse h he hf location location' hs use huse) fun _ _ hs =>
        both_collectUses rest hs hrest

end

theorem expandUsesAlike (h : NamesAlike context context') : ∀ n n' : Nat,
    ExpandUsesAlike context (expandAttributes context n) (expandAttributes context' n')
  | 0, _, _, _, _, _, _, _, _, _ => .throw
  | _ + 1, 0, _, _, _, _, _, _, _, _ => .throw_right
  | n + 1, n' + 1, location, location', _, _, _, hf, hl, hs =>
    both_collectUses h (expandUsesAlike h n n') hf location location' _ hs hl

theorem both_collectAttributes (h : NamesAlike context context')
    (hf : scope ∈ context.linkage.catalog.files) (location location' : String)
    {uses : List AttributeUse} (hl : usesLabels uses ⊆ scope.schema.labels)
    (hs : s.SameRoster s') :
    Both (collectAttributes context ⟨scope, location⟩ uses s)
      (collectAttributes context' ⟨scope, location'⟩ uses s') SameRoster :=
  both_collectUses h (expandUsesAlike h _ _) hf location location' uses hs hl

/-! ### Bases -/

/-- Bases and model groups are expanded to the same names. -/
structure ExpandAlike (context : Context) (expand expand' : Expansions) : Prop where
  base : ∀ (site site' : Site) (inheritance : Inheritance) (located : Located NamedType)
    {type : ComplexType} {s s' : Shape}, located.file ∈ context.linkage.catalog.files →
    type.labels ⊆ located.file.schema.labels → s.SameRoster s' →
    Both (expand.base site inheritance located type s)
      (expand'.base site' inheritance located type s') SameRoster
  group : ∀ (site site' : Site) (located : Located NamedGroup) (bounds : Bounds)
    (nested : Bool) {s s' : Shape}, located.file ∈ context.linkage.catalog.files →
    located.declaration.group.labels ⊆ located.file.schema.labels → s.SameRoster s' →
    Both (expand.group site located bounds nested s)
      (expand'.group site' located bounds nested s') SameRoster

/-- Character data takes no slot. -/
theorem yields_narrowText (context : Context) (site : Site) (located : Located NamedType)
    (facets : List Facet) (shape : Shape) :
    Yields (narrowText context site located facets shape) fun t => t.roster = shape.roster := by
  unfold narrowText
  split
  · exact .bind_any fun _ => .pure rfl
  · exact .bind_any fun _ => .pure rfl

section

variable (h : NamesAlike context context')
include h

theorem NamesAlike.complex {name : QName} {located : Located NamedType} {type : ComplexType}
    (hl : context.linkage.type? scope name = some located)
    (hd : located.declaration.definition = .complex type) :
    located.file ∈ context.linkage.catalog.files ∧ type.labels ⊆ located.file.schema.labels := by
  have hl : context.linkage.lookup? .types scope name = some located := hl
  obtain ⟨hfile, ht, -⟩ := h.linked.found hl
  exact ⟨hfile, Schema.labels_of_complex ht hd⟩

variable (location location' : String)

theorem both_complexBase? (base : QName) :
    Both (complexBase? context ⟨scope, location⟩ base)
      (complexBase? context' ⟨scope, location'⟩ base) fun found found' =>
        found = found' ∧ ∀ located type, found = some (located, type) →
          located.file ∈ context.linkage.catalog.files ∧
            type.labels ⊆ located.file.schema.labels := by
  unfold complexBase?
  rw [← h.linkage]
  refine .ite (fun _ => .pure ⟨rfl, fun _ _ hn => nomatch hn⟩) fun _ => .bind .found ?_
  rintro located _ ⟨rfl, hl⟩
  split
  · next type hd =>
      refine .pure ⟨rfl, fun _ _ hsome => ?_⟩
      obtain ⟨rfl, rfl⟩ := Prod.mk.inj (Option.some.inj hsome)
      exact h.complex hl hd
  · exact .pure ⟨rfl, fun _ _ hn => nomatch hn⟩

theorem both_collectElementRef (reference : QName) (bounds : Bounds) (hs : s.SameRoster s') :
    Both (collectElementRef context ⟨scope, location⟩ reference bounds s)
      (collectElementRef context' ⟨scope, location'⟩ reference bounds s') SameRoster := by
  unfold collectElementRef
  rw [← h.linkage]
  refine .bind .found ?_
  rintro located _ ⟨rfl, hl⟩
  have hl : context.linkage.lookup? .elements scope reference = some located := hl
  obtain ⟨hfile, hd, -⟩ := h.linked.found hl
  have hname : propertyName context located.file located.declaration.name
        located.declaration.qualified =
      propertyName context' located.file located.declaration.name located.declaration.qualified :=
    h.property located.file hfile located.declaration.label (Schema.label_of_element hd)
  dsimp only
  rw [hname]
  exact both_addElement location location' _ rfl hs

variable {expand expand' : Expansions} (he : ExpandAlike context expand expand')
include he

theorem both_collectBase (inheritance : Inheritance) (base : QName) (hs : s.SameRoster s') :
    Both (collectBase context expand ⟨scope, location⟩ inheritance base s)
      (collectBase context' expand' ⟨scope, location'⟩ inheritance base s') SameRoster := by
  unfold collectBase
  rw [← h.linkage]
  refine .ite (fun _ => .ite (fun _ => .pure hs) fun _ => .after fun _ _ => .pure hs) fun _ =>
    .bind .found ?_
  rintro located _ ⟨rfl, hl⟩
  split
  · next type hd =>
      obtain ⟨hfile, hlabels⟩ := h.complex hl hd
      exact .visiting (he.base _ _ inheritance located hfile hlabels hs)
  · exact .after fun _ _ => .pure hs

theorem both_collectText (base : QName) (derivation : Derivation) (facets : List Facet)
    (hs : s.SameRoster s') :
    Both (collectText context expand ⟨scope, location⟩ base derivation facets s)
      (collectText context' expand' ⟨scope, location'⟩ base derivation facets s') SameRoster := by
  unfold collectText
  refine .bind (both_complexBase? h location location' base) ?_
  rintro found _ ⟨rfl, hfound⟩
  cases found with
  | none => exact .after fun _ _ => .pure hs
  | some found =>
      obtain ⟨located, type⟩ := found
      obtain ⟨hfile, hlabels⟩ := hfound located type rfl
      refine .bind (.visiting (he.base _ _ .everything located hfile hlabels hs)) fun t t' ht => ?_
      refine .ite (fun _ => .pure ht) fun _ => .of_yields (yields_narrowText _ _ _ _ _)
        (yields_narrowText _ _ _ _ _) fun a b ha hb => ?_
      exact ha.trans (Eq.trans ht hb.symm)

/-! ### Content models -/

theorem both_collectGroupRef (reference : QName) (bounds : Bounds) (nested : Bool)
    (hs : s.SameRoster s') :
    Both (collectGroupRef context expand ⟨scope, location⟩ reference bounds nested s)
      (collectGroupRef context' expand' ⟨scope, location'⟩ reference bounds nested s')
      SameRoster := by
  unfold collectGroupRef
  rw [← h.linkage]
  refine .bind .found ?_
  rintro located _ ⟨rfl, hl⟩
  have hl : context.linkage.lookup? .groups scope reference = some located := hl
  obtain ⟨hfile, hg, -⟩ := h.linked.found hl
  have hlabels := Schema.labels_of_group hg
  refine .visiting (.ite (fun _ => ?_) fun _ => he.group _ _ located bounds nested hfile hlabels hs)
  exact .bind (he.group _ _ located .once true hfile hlabels rfl) fun members members' hm =>
    .pure (hs.addReference hm _ _)

variable (hf : scope ∈ context.linkage.catalog.files)
include hf

set_option linter.unusedSectionVars false in
mutual

/-- A complex type has the same names in both documents. -/
theorem both_collectComplex (inheritance : Inheritance) {s s' : Shape} (hs : s.SameRoster s') :
    ∀ type : ComplexType, type.labels ⊆ scope.schema.labels →
      Both (collectComplex context expand ⟨scope, location⟩ inheritance s type)
        (collectComplex context' expand' ⟨scope, location'⟩ inheritance s' type) SameRoster
  | ⟨content, attributes, anyAttribute, mixed⟩, hl => by
      obtain ⟨hcontent, hattributes⟩ := List.append_subset.1 hl
      have collected : Both
          (do
            let shape ← collectContent context expand ⟨scope, location⟩ inheritance s content
            let shape ← collectAttributes context ⟨scope, location⟩ attributes shape
            return if anyAttribute then { shape with isOpen := true } else shape)
          (do
            let shape ← collectContent context' expand' ⟨scope, location'⟩ inheritance s' content
            let shape ← collectAttributes context' ⟨scope, location'⟩ attributes shape
            return if anyAttribute then { shape with isOpen := true } else shape) SameRoster := by
        refine .bind (both_collectContent inheritance hs content hcontent) fun t t' ht =>
          .bind (both_collectAttributes h hf location location' hattributes ht) fun t t' ht =>
            .pure ?_
        split
        · exact ht
        · exact ht
      unfold collectComplex
      exact .ite (fun _ => .after fun _ _ => collected) fun _ => collected

theorem both_collectContent (inheritance : Inheritance) {s s' : Shape} (hs : s.SameRoster s') :
    ∀ content : Content, content.labels ⊆ scope.schema.labels →
      Both (collectContent context expand ⟨scope, location⟩ inheritance s content)
        (collectContent context' expand' ⟨scope, location'⟩ inheritance s' content) SameRoster
  | .empty, _ => .pure hs
  | .particle p, hl => by
      unfold collectContent
      exact .ite (fun _ => both_collectParticle .once false hs p hl) fun _ => .pure hs
  | .extension base none, _ => both_collectBase h location location' he inheritance base hs
  | .extension base (some p), hl => by
      unfold collectContent
      exact .bind (both_collectBase h location location' he inheritance base hs) fun t t' ht =>
        .ite (fun _ => both_collectParticle .once false ht p hl) fun _ => .pure ht
  | .restriction base none, _ => both_collectBase h location location' he .attributes base hs
  | .restriction base (some p), hl => by
      unfold collectContent
      exact .bind (both_collectBase h location location' he .attributes base hs) fun t t' ht =>
        .ite (fun _ => both_collectParticle .once false ht p hl) fun _ => .pure ht
  | .simple base derivation facets, _ =>
    both_collectText h location location' he base derivation facets hs

theorem both_collectParticle (outer : Bounds) (nested : Bool) {s s' : Shape}
    (hs : s.SameRoster s') : ∀ p : Particle, p.labels ⊆ scope.schema.labels →
      Both (collectParticle context expand ⟨scope, location⟩ outer nested s p)
        (collectParticle context' expand' ⟨scope, location'⟩ outer nested s' p) SameRoster
  | ⟨least, most, term⟩, hl => by
      unfold collectParticle
      exact .ite (fun _ => .pure hs) fun _ => both_collectTerm _ nested hs term hl

theorem both_collectTerm (bounds : Bounds) (nested : Bool) {s s' : Shape}
    (hs : s.SameRoster s') : ∀ term : Term, term.labels ⊆ scope.schema.labels →
      Both (collectTerm context expand ⟨scope, location⟩ bounds nested s term)
        (collectTerm context' expand' ⟨scope, location'⟩ bounds nested s' term) SameRoster
  | .element declaration, hl => by
      have hname : propertyName context scope declaration.name declaration.qualified =
          propertyName context' scope declaration.name declaration.qualified :=
        h.property scope hf declaration.label (hl declaration.label_mem_labels)
      unfold collectTerm
      dsimp only
      rw [hname]
      exact .after fun _ _ => both_addElement location location' _ rfl hs
  | .elementRef reference, _ => by
      unfold collectTerm
      exact both_collectElementRef h location location' reference bounds hs
  | .group group, hl => by
      unfold collectTerm
      exact both_collectGroup bounds nested hs group hl
  | .groupRef reference, _ => by
      unfold collectTerm
      exact both_collectGroupRef h location location' he reference bounds nested hs
  | .any, _ => .pure hs

/-- A model group has the same names in both documents. -/
theorem both_collectGroup (bounds : Bounds) (nested : Bool) {s s' : Shape}
    (hs : s.SameRoster s') : ∀ group : ModelGroup, group.labels ⊆ scope.schema.labels →
      Both (collectGroup context expand ⟨scope, location⟩ bounds nested s group)
        (collectGroup context' expand' ⟨scope, location'⟩ bounds nested s' group) SameRoster
  | ⟨.choice, particles⟩, hl => by
      unfold collectGroup
      refine .ite (fun _ => .after fun _ _ => both_collectParticles _ nested hs particles hl)
        fun _ => ?_
      exact .bind (both_collectBranches _ particles hl) fun _ _ hb =>
        both_addChoice location location' _ _ hb hs
  | ⟨.sequence, particles⟩, hl => by
      unfold collectGroup
      exact both_collectParticles bounds nested hs particles hl
  | ⟨.all, particles⟩, hl => by
      unfold collectGroup
      exact both_collectParticles bounds nested hs particles hl

theorem both_collectParticles (outer : Bounds) (nested : Bool) {s s' : Shape}
    (hs : s.SameRoster s') : ∀ particles : List Particle,
      particlesLabels particles ⊆ scope.schema.labels →
      Both (collectParticles context expand ⟨scope, location⟩ outer nested s particles)
        (collectParticles context' expand' ⟨scope, location'⟩ outer nested s' particles) SameRoster
  | [], _ => .pure hs
  | p :: rest, hl => by
      obtain ⟨hp, hrest⟩ := List.append_subset.1 hl
      unfold collectParticles
      exact .bind (both_collectParticle outer nested hs p hp) fun _ _ ht =>
        both_collectParticles outer nested ht rest hrest

theorem both_collectBranches (outer : Bounds) : ∀ particles : List Particle,
      particlesLabels particles ⊆ scope.schema.labels →
      Both (collectBranches context expand ⟨scope, location⟩ outer particles)
        (collectBranches context' expand' ⟨scope, location'⟩ outer particles)
        fun branches branches' => branches.map roster = branches'.map roster
  | [], _ => .pure rfl
  | p :: rest, hl => by
      obtain ⟨hp, hrest⟩ := List.append_subset.1 hl
      unfold collectBranches
      refine .bind (both_collectParticle outer true rfl p hp) fun _ _ hb =>
        .bind (both_collectBranches outer rest hrest) fun _ _ hbs => .pure ?_
      rw [List.map_cons, List.map_cons, hbs]
      exact congrArg (· :: _) hb

end

end

/-- Bases and model groups that lie however deep inside each other are expanded to the same
names. -/
theorem expandAlike (h : NamesAlike context context') : ∀ n n' : Nat,
    ExpandAlike context (expansions context n) (expansions context' n')
  | 0, _ => ⟨fun _ _ _ _ _ _ _ _ _ _ => .throw, fun _ _ _ _ _ _ _ _ _ _ => .throw⟩
  | _ + 1, 0 =>
    ⟨fun _ _ _ _ _ _ _ _ _ _ => .throw_right, fun _ _ _ _ _ _ _ _ _ _ => .throw_right⟩
  | n + 1, n' + 1 =>
    ⟨fun _ _ inheritance _ type _ _ hf hl hs =>
      both_collectComplex h _ _ (expandAlike h n n') hf inheritance hs type hl,
    fun _ _ _ bounds nested _ _ hf hl hs =>
      both_collectGroup h _ _ (expandAlike h n n') hf bounds nested hs _ hl⟩

/-- Whatever content `scope` states, what is collected for both documents has the same names. -/
structure CollectAlike (context context' : Context) (scope : File) : Prop where
  type : ∀ (n n' : Nat) (location location' : String) (inheritance : Inheritance) {s s' : Shape},
    s.SameRoster s' → ∀ type : ComplexType, type.labels ⊆ scope.schema.labels →
    Both (collectComplex context (expansions context n) ⟨scope, location⟩ inheritance s type)
      (collectComplex context' (expansions context' n') ⟨scope, location'⟩ inheritance s' type)
      SameRoster
  group : ∀ (n n' : Nat) (location location' : String) (bounds : Bounds) (nested : Bool)
    {s s' : Shape}, s.SameRoster s' → ∀ group : ModelGroup, group.labels ⊆ scope.schema.labels →
    Both (collectGroup context (expansions context n) ⟨scope, location⟩ bounds nested s group)
      (collectGroup context' (expansions context' n') ⟨scope, location'⟩ bounds nested s' group)
      SameRoster
  attributes : ∀ (location location' : String) {s s' : Shape}, s.SameRoster s' →
    ∀ {uses : List AttributeUse}, usesLabels uses ⊆ scope.schema.labels →
    Both (collectAttributes context ⟨scope, location⟩ uses s)
      (collectAttributes context' ⟨scope, location'⟩ uses s') SameRoster

theorem NamesAlike.collectAlike (h : NamesAlike context context')
    (hf : scope ∈ context.linkage.catalog.files) : CollectAlike context context' scope where
  type n n' location location' inheritance _ _ hs :=
    both_collectComplex h location location' (expandAlike h n n') hf inheritance hs
  group n n' location location' bounds nested _ _ hs :=
    both_collectGroup h location location' (expandAlike h n n') hf bounds nested hs
  attributes location location' _ _ hs _ hl :=
    both_collectAttributes h hf location location' hl hs

end Conversion

end Crosswalk
