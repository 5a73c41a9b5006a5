import Crosswalk.Proofs.Conversion.Cause

/-!
# Linkages that correspond

Two batches may have files in common, or files that differ in nothing but the order of their
declarations, or the same files with another resolution. Files that are alike apart from their
declarations are twins. The linkage of one batch corresponds to that of the other if the names that
a file mentions stand for the same from its twins, and if every declaration of the first batch is one
of the second, in a twin of its file. Then what is looked up from a file of the first batch is looked
up from its twins as well.

If each of two linkages corresponds to the other one, a name stands for a declaration in one if and
only if it does in the other, even if it is a name of XML Schema itself. So the bases of a type lead
to a type that was there before in both of them or in neither, and the same is true of the groups
that a group refers to.
-/

namespace Crosswalk

/-- Two files are alike, apart from their texts, declarations and prefixes. -/
structure File.Resembles (f g : File) : Prop where
  filename : f.filename = g.filename
  identifier : f.identifier = g.identifier
  spaces : Linkage.spacesAround f = Linkage.spacesAround g

theorem File.Resembles.refl (f : File) : f.Resembles f := ⟨rfl, rfl, rfl⟩

namespace Linkage

open Declarations Conversion

variable {α : Type} {l m : Linkage} {f g : File} {kind : DeclarationKind} {name : QName}
  {location : String} {refs refs' : List Reference}

/-- Files of two batches that are alike. -/
structure Twins (l m : Linkage) (f g : File) : Prop extends f.Resembles g where
  left : f ∈ l.catalog.files
  right : g ∈ m.catalog.files

/-- A declaration, and the same one in a twin of its file. -/
structure Stands (l m : Linkage) (a b : Located α) : Prop where
  twins : Twins l m a.file b.file
  declaration : a.declaration = b.declaration

theorem Stands.refl {a : Located α} (hl : a.file ∈ l.catalog.files)
    (hm : a.file ∈ m.catalog.files) : Stands l m a a :=
  ⟨⟨.refl _, hl, hm⟩, rfl⟩

/-- The references of a component stand for the same, seen from either of two files. -/
def Sees (l m : Linkage) (f g : File) (refs : List Reference) : Prop :=
  ∀ r ∈ refs, l.resolve? r.kind f r.name = m.resolve? r.kind g r.name

/-- The declarations of one linkage are found in another one, and the names in its files stand for
the same there. -/
structure Corresponds (l m : Linkage) : Prop where
  linked : l.IsLinked
  sees : ∀ {f g : File}, Twins l m f g → Sees l m f g f.schema.references
  declares : ∀ {α : Type} (row : Row α), row.IsBasic → ∀ {q : QName} {a : Located α},
    (row.table l.declarations).find? q = some a →
      ∃ b, (row.table m.declarations).find? q = some b ∧ Stands l m a b
  reuses : ∀ q, l.declarations.contains .group q = true → l.isReused q = m.isReused q

/-- From files that are alike, a name stands for the same wherever the same names are declared. -/
theorem resolve?_congr (hr : l.resolution = m.resolution)
    (hd : ∀ kind q, l.declarations.contains kind q = m.declarations.contains kind q)
    (hf : f.Resembles g) (kind : DeclarationKind) (name : QName) :
    l.resolve? kind f name = m.resolve? kind g name := by
  rw [resolve?, resolve?, candidates, candidates, hf.spaces, hr]
  simp only [hd]

namespace Sees

theorem mono (h : Sees l m f g refs) (hr : ∀ r ∈ refs', r ∈ refs) : Sees l m f g refs' :=
  fun r hm => h r (hr r hm)

theorem left (h : Sees l m f g (refs ++ refs')) : Sees l m f g refs :=
  h.mono fun _ => List.mem_append_left _

theorem right (h : Sees l m f g (refs ++ refs')) : Sees l m f g refs' :=
  h.mono fun _ => List.mem_append_right _

theorem tail {r : Reference} (h : Sees l m f g (r :: refs)) : Sees l m f g refs :=
  h.mono fun _ => List.mem_cons_of_mem _

theorem singleton (h : l.resolve? kind f name = m.resolve? kind g name) (location : String) :
    Sees l m f g [⟨kind, name, location⟩] :=
  List.forall_mem_singleton.2 h

end Sees

namespace Corresponds

variable (h : Corresponds l m)
include h

/-- What is looked up is the same declaration, or nothing in either linkage. -/
theorem lookup? {row : Row α} (hrow : row.IsBasic) (hs : Sees l m f g refs)
    (hr : ⟨row.kind, name, location⟩ ∈ refs) (hb : name.isBuiltin = false ∨ row.kind ≠ .type) :
    Option.Rel (Stands l m) (l.lookup? row f name) (m.lookup? row g name) := by
  have hsame := hs _ hr
  dsimp only at hsame
  rw [Linkage.lookup?, Linkage.lookup?, ← hsame]
  cases hl : l.resolve? row.kind f name with
  | none => exact .none
  | some r =>
      have hc := contains_of_resolve?_of hl hb
      rw [row.contains_table, Table.contains, Option.isSome_iff_exists] at hc
      obtain ⟨a, ha⟩ := hc
      obtain ⟨b, hb, hab⟩ := h.declares row hrow ha
      rw [Option.bind_some, Option.bind_some, ha, hb]
      exact .some hab

theorem type? (hs : Sees l m f g refs) (hr : ⟨.type, name, location⟩ ∈ refs)
    (hb : name.isBuiltin = false) :
    Option.Rel (Stands l m) (l.type? f name) (m.type? g name) :=
  h.lookup? .types hs hr (.inl hb)

theorem element? (hs : Sees l m f g refs) (hr : ⟨.element, name, location⟩ ∈ refs) :
    Option.Rel (Stands l m) (l.element? f name) (m.element? g name) :=
  h.lookup? .elements hs hr (.inr (by decide))

theorem group? (hs : Sees l m f g refs) (hr : ⟨.group, name, location⟩ ∈ refs) :
    Option.Rel (Stands l m) (l.group? f name) (m.group? g name) :=
  h.lookup? .groups hs hr (.inr (by decide))

theorem attribute? (hs : Sees l m f g refs) (hr : ⟨.attribute, name, location⟩ ∈ refs) :
    Option.Rel (Stands l m) (l.attribute? f name) (m.attribute? g name) :=
  h.lookup? .attributes hs hr (.inr (by decide))

theorem attributeGroup? (hs : Sees l m f g refs)
    (hr : ⟨.attributeGroup, name, location⟩ ∈ refs) :
    Option.Rel (Stands l m) (l.attributeGroup? f name) (m.attributeGroup? g name) :=
  h.lookup? .attributeGroups hs hr (.inr (by decide))

/-- What the first linkage declares, the second one does. -/
theorem contains (hc : l.declarations.contains kind name = true) :
    m.declarations.contains kind name = true := by
  have hrow : ∀ {α : Type} {row : Row α}, row.IsBasic → row.kind = kind →
      m.declarations.contains kind name = true := by
    rintro α row hbasic rfl
    rw [row.contains_table, Table.contains, Option.isSome_iff_exists] at hc ⊢
    obtain ⟨a, ha⟩ := hc
    obtain ⟨b, hb, -⟩ := h.declares row hbasic ha
    exact ⟨b, hb⟩
  rcases kind with _ | _ | _ | _ | _
  · exact hrow .types rfl
  · exact hrow .elements rfl
  · exact hrow .groups rfl
  · exact hrow .attributes rfl
  · exact hrow .attributeGroups rfl

/-- The name of a declaration stands for the same from everywhere. -/
theorem resolve?_declared (hc : l.declarations.contains kind name = true) :
    l.resolve? kind f name = m.resolve? kind g name := by
  cases hb : name.isBuiltin with
  | true => rw [resolve?, resolve?, if_pos hb, if_pos hb]
  | false => rw [resolve?_of_contains hb hc, resolve?_of_contains hb (h.contains hc)]

theorem inside {v : Visited} (hi : Inside l v) : Inside m v :=
  ⟨hi.nodup, fun kind q hq => h.contains (hi.declared kind q hq)⟩

/-! ### The names in declarations -/

/-- What a declaration that was found mentions is seen from its file. -/
theorem sees_type {a b : Located NamedType} (hab : Stands l m a b)
    (ht : a.declaration ∈ a.file.schema.types) : Sees l m a.file b.file
      (a.declaration.definition.references ("type " ++ a.declaration.name.name)) :=
  (h.sees hab.twins).mono fun _ => mem_references_of_type ht

theorem sees_group {a b : Located NamedGroup} (hab : Stands l m a b)
    (hg : a.declaration ∈ a.file.schema.groups) : Sees l m a.file b.file
      (a.declaration.group.references ("group " ++ a.declaration.name.name)) :=
  (h.sees hab.twins).mono fun _ => mem_references_of_group hg

theorem sees_attribute {a b : Located Attribute} (hab : Stands l m a b)
    (ha : a.declaration ∈ a.file.schema.attributes) : Sees l m a.file b.file
      (a.declaration.references ("attribute " ++ a.declaration.name.name)) :=
  (h.sees hab.twins).mono fun _ => mem_references_of_attribute ha

theorem sees_attributeGroup {a b : Located AttributeGroup} (hab : Stands l m a b)
    (hg : a.declaration ∈ a.file.schema.attributeGroups) : Sees l m a.file b.file
      (usesReferences ("attributeGroup " ++ a.declaration.name.name) a.declaration.attributes) :=
  (h.sees hab.twins).mono fun _ => mem_references_of_attributeGroup hg

end Corresponds

end Linkage

/-! ### Loops -/

namespace Linkage

open Declarations

variable {l m : Linkage} {f g : File}

/-- The base of a type is one of its references. -/
theorem mem_references_of_base? {definition : TypeDefinition} {base : QName}
    (h : definition.base? = some base) (location : String) :
    ⟨.type, base, location⟩ ∈ definition.references location := by
  have content : ∀ c : Content, c.base? = some base →
      ⟨.type, base, location⟩ ∈ c.references location := by
    intro c hc
    rcases c with _ | _ | ⟨_, _ | p⟩ | ⟨_, _ | p⟩ | _
    · exact nomatch hc
    · exact nomatch hc
    all_goals
      obtain rfl := Option.some.inj hc
      exact List.mem_cons_self
  rcases definition with (⟨_ | _, _⟩ | _ | _) | ⟨c, attributes, _, _⟩
  · obtain rfl := Option.some.inj h
    exact List.mem_cons_self
  · exact nomatch h
  · exact nomatch h
  · exact nomatch h
  · exact List.mem_append_left _ (content c h)

mutual

/-- The groups that a model group refers to are among its references. -/
theorem ModelGroup.mem_references_of_groupRefs {name : QName} {location : String} :
    ∀ g : ModelGroup, name ∈ g.groupRefs → ⟨.group, name, location⟩ ∈ g.references location
  | ⟨_, particles⟩, h => mem_references_of_groupRefsOf particles h

theorem mem_references_of_groupRefsOf {name : QName} {location : String} :
    ∀ particles : List Particle, name ∈ groupRefsOf particles →
      ⟨.group, name, location⟩ ∈ particlesReferences location particles
  | [], h => absurd h List.not_mem_nil
  | p :: rest, h => by
      rw [particlesReferences, List.mem_append]
      rw [groupRefsOf, List.mem_append] at h
      exact h.imp (Particle.mem_references_of_groupRefs p) (mem_references_of_groupRefsOf rest)

theorem Particle.mem_references_of_groupRefs {name : QName} {location : String} :
    ∀ p : Particle, name ∈ p.groupRefs → ⟨.group, name, location⟩ ∈ p.references location
  | ⟨_, _, .element _⟩, h => absurd h List.not_mem_nil
  | ⟨_, _, .elementRef _⟩, h => absurd h List.not_mem_nil
  | ⟨_, _, .group g⟩, h => ModelGroup.mem_references_of_groupRefs g h
  | ⟨_, _, .groupRef other⟩, h => by
      obtain rfl : name = other := List.mem_singleton.1 h
      exact List.mem_cons_self
  | ⟨_, _, .any⟩, h => absurd h List.not_mem_nil

end

/-- There is no cycle of types if and only if the bases of no type lead to a loop. -/
theorem typeCycles_eq_nil_iff (entries : List (QName × Located NamedType)) :
    l.typeCycles [] entries = [] ↔ ∀ entry ∈ entries,
      l.baseLoop? (l.declarations.types.length + 1) [entry.1] entry.2 = none := by
  induction entries with
  | nil => simp [typeCycles]
  | cons entry rest ih =>
      rw [List.forall_mem_cons, ← ih, typeCycles, if_neg List.not_mem_nil]
      split
      · next chain hloop => simp [hloop]
      · next hloop => simp [hloop]

theorem groupCycles_eq_nil_iff : l.groupCycles = [] ↔ ∀ entry ∈ l.declarations.groups,
    l.groupLoops (l.declarations.groups.length + 1) [entry.1] entry.2.file
      entry.2.declaration.group = false := by
  rw [groupCycles, List.filterMap_eq_nil_iff]
  exact forall₂_congr fun entry _ => by simp

/-- Two linkages that have the same declarations, in files that are alike. -/
structure Matches (l m : Linkage) : Prop where
  there : l.Corresponds m
  back : m.Corresponds l

namespace Matches

variable (h : l.Matches m)
include h

theorem symm : m.Matches l := ⟨h.back, h.there⟩

/-- What is looked up is the same declaration, or nothing in either linkage, whatever the name. -/
theorem lookup? {α : Type} {row : Row α} (hrow : row.IsBasic) {refs : List Reference}
    (hs : l.Sees m f g refs) {name : QName} {location : String}
    (hr : ⟨row.kind, name, location⟩ ∈ refs) :
    Option.Rel (Stands l m) (l.lookup? row f name) (m.lookup? row g name) := by
  have hsame := hs _ hr
  dsimp only at hsame
  rw [Linkage.lookup?, Linkage.lookup?, ← hsame]
  cases l.resolve? row.kind f name with
  | none => exact .none
  | some r =>
      rw [Option.bind_some, Option.bind_some]
      cases ha : (row.table l.declarations).find? r.name with
      | some a =>
          obtain ⟨b, hb, hab⟩ := h.there.declares row hrow ha
          exact hb ▸ .some hab
      | none =>
          cases hb : (row.table m.declarations).find? r.name with
          | none => exact .none
          | some b =>
              obtain ⟨a, ha', -⟩ := h.back.declares row hrow hb
              cases ha.symm.trans ha'

/-- The bases of a type lead to the same loop. -/
theorem baseLoop?_eq (steps : Nat) : ∀ (chain : List QName) {a b : Located NamedType},
    Stands l m a b → a.declaration ∈ a.file.schema.types →
      l.baseLoop? steps chain a = m.baseLoop? steps chain b := by
  induction steps with
  | zero => exact fun _ _ _ _ _ => rfl
  | succ steps ih =>
      intro chain a b hab ha
      rw [baseLoop?, baseLoop?, ← hab.declaration]
      cases hbase : a.declaration.definition.base? with
      | none => rfl
      | some base =>
          have hrel := h.lookup? .types (h.there.sees_type hab ha)
            (mem_references_of_base? hbase _)
          have hfound : ∀ {next}, l.type? a.file base = some next →
              next.declaration ∈ next.file.schema.types := fun {next} hl =>
            have hl : l.lookup? .types a.file base = some next := hl
            (h.there.linked.found hl).2.1
          change Option.Rel _ (l.type? a.file base) (m.type? b.file base) at hrel
          dsimp only
          generalize l.type? a.file base = found, m.type? b.file base = found' at hrel hfound
          cases hrel with
          | none => rfl
          | some hnext =>
              dsimp only
              rw [ih _ hnext (hfound rfl), hnext.declaration]

/-- The groups that a group refers to lead to the same loop. -/
theorem groupLoops_eq (steps : Nat) : ∀ (path : List QName) {f g : File} {group : ModelGroup}
    {location : String}, l.Sees m f g (group.references location) →
      l.groupLoops steps path f group = m.groupLoops steps path g group := by
  induction steps with
  | zero => exact fun _ _ _ _ _ _ => rfl
  | succ steps ih =>
      intro path f g group location hs
      rw [groupLoops, groupLoops, Bool.eq_iff_iff, List.any_eq_true, List.any_eq_true]
      refine exists_congr fun name => and_congr_right fun hn => ?_
      have hrel := h.there.group? hs (ModelGroup.mem_references_of_groupRefs group hn)
      have hfound : ∀ {target}, l.group? f name = some target →
          target.declaration ∈ target.file.schema.groups := fun {target} hl =>
        have hl : l.lookup? .groups f name = some target := hl
        (h.there.linked.found hl).2.1
      generalize l.group? f name = found, m.group? g name = found' at hrel hfound
      cases hrel with
      | none => rfl
      | some htarget =>
          dsimp only
          rw [ih _ (h.there.sees_group htarget (hfound rfl)), htarget.declaration]

/-- As many declarations of different names have a cycle in both linkages or in neither. -/
theorem cycles_eq_nil
    (hn : ∀ {α : Type} {row : Row α}, row.IsBasic →
      (Table.keys (row.table l.declarations)).Nodup ∧
        (row.table l.declarations).length = (row.table m.declarations).length)
    (hm : m.cycles = []) : l.cycles = [] := by
  rw [cycles, List.append_eq_nil_iff, typeCycles_eq_nil_iff, groupCycles_eq_nil_iff] at hm ⊢
  have hentry : ∀ {α : Type} {row : Row α}, row.IsBasic → ∀ entry ∈ row.table l.declarations,
      ∃ b, (entry.1, b) ∈ row.table m.declarations ∧ Stands l m entry.2 b ∧
        entry.2.declaration ∈ row.declared entry.2.file.schema := by
    intro α row hb entry he
    have ha := Table.find?_of_mem (hn hb).1 he
    obtain ⟨b, hfind, hab⟩ := h.there.declares row hb ha
    exact ⟨b, Table.mem_of_find? hfind, hab, (h.there.linked.located row ha).2.1⟩
  have htypes : l.declarations.types.length = m.declarations.types.length := (hn .types).2
  have hgroups : l.declarations.groups.length = m.declarations.groups.length := (hn .groups).2
  refine ⟨fun entry he => ?_, fun entry he => ?_⟩
  · obtain ⟨b, hb, hab, hd⟩ := hentry .types entry he
    rw [h.baseLoop?_eq _ _ hab hd, htypes]
    exact hm.1 _ hb
  · obtain ⟨b, hb, hab, hd⟩ := hentry .groups entry he
    rw [h.groupLoops_eq _ _ (h.there.sees_group hab hd), hab.declaration, hgroups]
    exact hm.2 _ hb

end Matches

end Linkage

end Crosswalk
