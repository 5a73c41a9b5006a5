import Crosswalk.Proofs.Content.Roster
import Crosswalk.Proofs.Content.Text

/-!
# What content models bring

A particle reaches the terms that can occur in it: its own, and those of the model groups that it
holds or refers to, unless an upper bound on the way excludes them. What is collected of a particle
brings elements for the terms that it reaches, and nothing else; it leaves the attributes that were
there before alone; and it makes the shape open if and only if a wildcard is reached. For choices
the flag is carried from the branches, and for a reference to a group from the shape of its members.
-/

namespace Crosswalk

open Conversion

/-! ### Terms that can occur -/

/-- The model group that a term is or refers to, and the file that states it. -/
inductive Term.Holds (l : Linkage) : File → Term → File × ModelGroup → Prop
  | nested {scope : File} {group : ModelGroup} : Holds l scope (.group group) (scope, group)
  | reference {scope : File} {name : QName} {located : Located NamedGroup}
    (hl : l.group? scope name = some located) :
    Holds l scope (.groupRef name) (located.file, located.declaration.group)

/-- A particle inside of something with this limit reaches a term that some file states: it can
occur, and the term is its own or reached by a particle of the group that it holds. -/
inductive Particle.Reaches (l : Linkage) : File → Limit → Particle → File × Term → Prop
  | own {scope : File} {outer : Limit} {p : Particle} (hm : p.most.times outer ≠ .zero) :
    Reaches l scope outer p (scope, p.term)
  | inside {scope file : File} {outer : Limit} {p q : Particle} {group : ModelGroup}
    {place : File × Term} (hm : p.most.times outer ≠ .zero)
    (hg : p.term.Holds l scope (file, group)) (hq : q ∈ group.particles)
    (h : Reaches l file (p.most.times outer) q place) : Reaches l scope outer p place

/-- One of some particles reaches a term. -/
def ReachedBy (l : Linkage) (scope : File) (outer : Limit) (particles : List Particle)
    (place : File × Term) : Prop :=
  ∃ p ∈ particles, p.Reaches l scope outer place

/-- What a term reaches that occurs up to some limit: itself, and what the particles of the group
that it holds reach. -/
def Term.Reaches (l : Linkage) (scope : File) (limit : Limit) (term : Term)
    (place : File × Term) : Prop :=
  place = (scope, term) ∨ ∃ file group, term.Holds l scope (file, group) ∧
    ReachedBy l file limit group.particles place

/-- A term is an element, or refers to one, that has this property name. -/
inductive Term.Names (context : Context) : File → Term → String → Prop
  | element {scope : File} {declaration : Element} :
    Names context scope (.element declaration)
      (propertyName context scope declaration.name declaration.qualified)
  | reference {scope : File} {name : QName} {located : Located Element}
    (hl : context.linkage.element? scope name = some located) :
    Names context scope (.elementRef name)
      (propertyName context located.file located.declaration.name located.declaration.qualified)

section

variable {l : Linkage} {scope : File} {outer : Limit} {place : File × Term}

theorem Particle.not_reaches {p : Particle} (hm : p.most.times outer = .zero) :
    ¬ p.Reaches l scope outer place := by
  intro h
  cases h with
  | own h => exact h hm
  | inside h _ _ _ => exact h hm

theorem Particle.reaches_iff {p : Particle} (hm : p.most.times outer ≠ .zero) :
    p.Reaches l scope outer place ↔ p.term.Reaches l scope (p.most.times outer) place := by
  constructor
  · intro h
    cases h with
    | own _ => exact .inl rfl
    | inside _ hg hq h => exact .inr ⟨_, _, hg, _, hq, h⟩
  · rintro (rfl | ⟨file, group, hg, q, hq, h⟩)
    · exact .own hm
    · exact .inside hm hg hq h

theorem Term.reaches_iff_of_holds {term : Term} {file : File} {group : ModelGroup}
    (hg : term.Holds l scope (file, group)) : term.Reaches l scope outer place ↔
      place = (scope, term) ∨ ReachedBy l file outer group.particles place := by
  refine or_congr_right ⟨fun ⟨file', group', hg', h⟩ => ?_, fun h => ⟨file, group, hg, h⟩⟩
  cases hg with
  | nested =>
      cases hg'
      exact h
  | reference hl =>
      cases hg' with
      | reference hl' =>
          obtain rfl := Option.some.inj (hl.symm.trans hl')
          exact h

theorem Term.reaches_iff_eq {term : Term} (h : ∀ held, ¬ term.Holds l scope held) :
    term.Reaches l scope outer place ↔ place = (scope, term) :=
  or_iff_left fun ⟨_, _, hg, _⟩ => h _ hg

theorem not_reachedBy_nil : ¬ ReachedBy l scope outer [] place := by
  rintro ⟨p, hp, -⟩
  exact absurd hp List.not_mem_nil

theorem reachedBy_cons {p : Particle} {rest : List Particle} :
    ReachedBy l scope outer (p :: rest) place ↔
      p.Reaches l scope outer place ∨ ReachedBy l scope outer rest place := by
  simp only [ReachedBy, List.mem_cons, exists_eq_or_imp]

end

namespace Shape

/-! ### Attributes and elements of a shape -/

/-- The slots of attributes. -/
def attributes (s : Shape) : List (String × Slot) := s.slots.filter fun e => e.2.isAttribute

/-- The name has the slot of an element. -/
def HasElement (s : Shape) (name : String) : Prop := (name, false) ∈ s.roster

theorem not_hasElement_empty (name : String) : ¬ HasElement {} name := List.not_mem_nil

theorem mem_enlist {roster : List (String × Bool)} {name : String} {isAttribute : Bool}
    {e : String × Bool} (h : e ∈ enlist roster name isAttribute) :
    e ∈ roster ∨ e = (name, isAttribute) := by
  unfold enlist at h
  split at h
  · exact .inl h
  · exact (List.mem_append.1 h).imp_right List.mem_singleton.1

theorem mem_enlist_of_mem {roster : List (String × Bool)} {e : String × Bool} (h : e ∈ roster)
    (name : String) (isAttribute : Bool) : e ∈ enlist roster name isAttribute := by
  unfold enlist
  split
  · exact h
  · exact List.mem_append_left _ h

/-- Slots of one kind stay as they are when one of the other kind is placed. -/
theorem filter_place {p : Slot → Bool} {change : Slot → Slot} {name : String} {slot : Slot}
    {slots : List (String × Slot)} (hs : p slot = false)
    (h : ∀ old, Table.find? slots name = some old → p old = false ∧ p (change old) = false) :
    (place change name slot slots).filter (fun e => p e.2) = slots.filter fun e => p e.2 := by
  induction slots with
  | nil => simp [place, hs]
  | cons e rest ih =>
      obtain ⟨n, old⟩ := e
      rw [place]
      split
      · next hn =>
          obtain ⟨hold, hchange⟩ := h old (by rw [Table.find?_cons, if_pos hn.symm])
          simp [hold, hchange]
      · next hn =>
          have hrest := ih fun old ho => h old (by rwa [Table.find?_cons, if_neg (Ne.symm hn)])
          simp only [List.filter_cons, hrest]

section

variable {s : Shape} {join : Slot → Slot → Slot} {name : String} {slot : Slot}

theorem attributes_addElement (hj : Slot.IsJoin join) (ha : slot.isAttribute = false) :
    (s.addElement join name slot).1.attributes = s.attributes := by
  obtain ⟨bounds, required, hj⟩ := hj
  unfold addElement
  split
  · next hs => exact filter_place ha fun old ho => nomatch hs.symm.trans ho
  · next found hs =>
      split
      · rfl
      · next hf =>
          refine filter_place ha fun old ho => ?_
          obtain rfl := Option.some.inj (hs.symm.trans ho)
          simpa [hj] using hf

theorem isOpen_addElement (s : Shape) (join : Slot → Slot → Slot) (name : String) (slot : Slot) :
    (s.addElement join name slot).1.isOpen = s.isOpen := by
  unfold addElement
  split
  · rfl
  · split <;> rfl

theorem hasElement_addElement (hj : Slot.IsJoin join) {other : String}
    (h : (s.addElement join name slot).1.HasElement other) : s.HasElement other ∨ other = name := by
  unfold HasElement at h
  rw [roster_addElement s hj] at h
  exact (mem_enlist h).imp_right fun he => (Prod.mk.inj he).1

end

theorem hasElement_addElement_of_hasElement {s : Shape} {join : Slot → Slot → Slot}
    (hj : Slot.IsJoin join) (name : String) (slot : Slot) {other : String}
    (h : s.HasElement other) :
    (s.addElement join name slot).1.HasElement other := by
  unfold HasElement
  rw [roster_addElement s hj]
  exact mem_enlist_of_mem h _ _

theorem hasElement_of_attributes_nil {s : Shape} (h : s.attributes = []) {e : String × Slot}
    (he : e ∈ s.slots) : e.2.isAttribute = false ∧ s.HasElement e.1 := by
  have ha : e.2.isAttribute = false := by simpa using List.filter_eq_nil_iff.1 h e he
  exact ⟨ha, List.mem_map.2 ⟨e, he, by rw [ha]⟩⟩

/-! ### Elements that are added -/

/-- The second shape comes of the first by elements that have such names, and by a wildcard if it
`opens` the shape. The attributes are the same. -/
structure Gathers (named : String → Prop) (opens : Prop) (s r : Shape) : Prop where
  attributes : r.attributes = s.attributes
  kept : ∀ name, s.HasElement name → r.HasElement name
  elements : ∀ name, r.HasElement name → s.HasElement name ∨ named name
  isOpen : r.isOpen = true ↔ s.isOpen = true ∨ opens

section

variable {named named' : String → Prop} {opens opens' : Prop} {s t r : Shape}

theorem Gathers.refl (named : String → Prop) (ho : ¬ opens) (s : Shape) :
    Gathers named opens s s :=
  ⟨rfl, fun _ => id, fun _ => .inl, (or_iff_left ho).symm⟩

theorem Gathers.mono (h : Gathers named opens s r) (hn : ∀ name, named name → named' name)
    (ho : opens' ↔ opens) : Gathers named' opens' s r :=
  ⟨h.attributes, h.kept, fun name hname => (h.elements name hname).imp_right (hn name), by
    rw [h.isOpen, ho]⟩

theorem Gathers.trans (h : Gathers named opens s t) (h' : Gathers named' opens' t r) :
    Gathers (fun name => named name ∨ named' name) (opens ∨ opens') s r where
  attributes := h'.attributes.trans h.attributes
  kept name hn := h'.kept name (h.kept name hn)
  elements name hn := by
    rcases h'.elements name hn with hn | hn
    · exact (h.elements name hn).imp_right .inl
    · exact .inr (.inr hn)
  isOpen := by rw [h'.isOpen, h.isOpen, or_assoc]

/-- A wildcard opens the shape. -/
theorem gathers_opened (named : String → Prop) (s : Shape) (isOpen : Bool) :
    Gathers named (isOpen = true) s { s with isOpen := s.isOpen || isOpen } :=
  ⟨rfl, fun _ => id, fun _ => .inl, Bool.or_eq_true_iff⟩

theorem gathers_addElement {join : Slot → Slot → Slot} (hj : Slot.IsJoin join) (s : Shape)
    (name : String) {slot : Slot} (ha : slot.isAttribute = false) :
    Gathers (· = name) False s (s.addElement join name slot).1 :=
  ⟨attributes_addElement hj ha, fun _ => hasElement_addElement_of_hasElement hj name slot,
    fun _ => hasElement_addElement hj, by rw [isOpen_addElement, or_false]⟩

/-- Elements are added one by one, which all have such names. -/
theorem gathers_foldl {α : Type} {f : Shape → α → Shape} {as : List α} (key : α → String)
    (h : ∀ a ∈ as, ∀ s, Gathers (· = key a) False s (f s a)) (hn : ∀ a ∈ as, named (key a))
    (s : Shape) : Gathers named False s (as.foldl f s) :=
  List.foldlRecOn as f (.refl named id s) fun _ ht a ha => (ht.trans (h a ha _)).mono
    (fun _ hname => hname.elim id fun hkey => hkey ▸ hn a ha) (or_self_iff).symm

theorem gathers_joinMember (outside : List String) (s : Shape) {member : String × Slot}
    (ha : member.2.isAttribute = false) :
    Gathers (· = member.1) False s (s.joinMember outside member) := by
  unfold joinMember
  split
  · exact gathers_addElement Slot.isJoin_andThen s _ rfl
  · exact gathers_addElement Slot.isJoin_orElse s _ ha

/-- A branch without attributes is joined. -/
theorem gathers_joinBranch (outside : List String) (s : Shape) {branch : Shape}
    (h : branch.attributes = []) :
    Gathers branch.HasElement (branch.isOpen = true) s (s.joinBranch outside branch) := by
  have members : Gathers branch.HasElement False { s with isOpen := s.isOpen || branch.isOpen }
      (s.joinBranch outside branch) := gathers_foldl Prod.fst
    (fun member hm s => gathers_joinMember outside s (hasElement_of_attributes_nil h hm).1)
    (fun member hm => (hasElement_of_attributes_nil h hm).2) _
  exact ((gathers_opened branch.HasElement s branch.isOpen).trans members).mono
    (fun _ => or_self_iff.1) (or_iff_left id).symm

/-- Branches without attributes are joined in turn. -/
theorem gathers_joinBranches (outside : List String) {branches : List Shape}
    (h : ∀ branch ∈ branches, branch.attributes = []) (s : Shape) :
    Gathers (fun name => ∃ branch ∈ branches, branch.HasElement name)
      (∃ branch ∈ branches, branch.isOpen = true) s (branches.foldl (joinBranch outside) s) := by
  induction branches generalizing s with
  | nil => exact .refl _ (by simp) s
  | cons branch rest ih =>
      rw [List.forall_mem_cons] at h
      exact ((gathers_joinBranch outside s h.1).trans (ih h.2 _)).mono (by simp) (by simp)

theorem gathers_withChoice {branches : List Shape} (h : ∀ branch ∈ branches, branch.attributes = [])
    (s : Shape) (obliged : Bool) :
    Gathers (fun name => ∃ branch ∈ branches, branch.HasElement name)
      (∃ branch ∈ branches, branch.isOpen = true) s (s.withChoice branches obliged) :=
  have joined := gathers_joinBranches s.names h s
  ⟨joined.attributes, joined.kept, joined.elements, joined.isOpen⟩

/-- A group without attributes is referred to. -/
theorem gathers_addReference (s : Shape) {members : Shape} (h : members.attributes = [])
    (reference : Json) :
    Gathers members.HasElement (members.isOpen = true) s (s.addReference members reference) := by
  have joined : Gathers members.HasElement False s (members.names.foldl
      (fun s name => (s.addElement Slot.andThen name .placeholder).1) s) := gathers_foldl id
    (fun name _ s => gathers_addElement Slot.isJoin_andThen s name rfl)
    (fun name hn => by
      obtain ⟨e, he, rfl⟩ := List.mem_map.1 hn
      exact (hasElement_of_attributes_nil h he).2) s
  have opened := joined.trans (gathers_opened members.HasElement _ members.isOpen)
  have all : Gathers members.HasElement (members.isOpen = true) s _ :=
    opened.mono (fun _ => or_self_iff.1) (or_iff_right id).symm
  exact ⟨all.attributes, all.kept, all.elements, all.isOpen⟩

end

/-- The elements and wildcards that a shape has come of another one by are those of some terms. -/
def Brings (context : Context) (terms : File × Term → Prop) : Shape → Shape → Prop :=
  Gathers (fun name => ∃ place, terms place ∧ place.2.Names context place.1 name)
    (∃ file, terms (file, .any))

/-- Shapes that were collected on their own of some terms between them. -/
structure AreBranches (context : Context) (terms : File × Term → Prop) (branches : List Shape) :
    Prop where
  attributes : ∀ branch ∈ branches, branch.attributes = []
  elements : ∀ branch ∈ branches, ∀ name, branch.HasElement name →
    ∃ place, terms place ∧ place.2.Names context place.1 name
  isOpen : (∃ branch ∈ branches, branch.isOpen = true) ↔ ∃ file, terms (file, .any)

section

variable {context : Context} {terms terms' : File × Term → Prop} {s t r : Shape} {scope : File}
  {term : Term}

theorem Brings.refl (h : ∀ place, ¬ terms place) (s : Shape) : Brings context terms s s :=
  Gathers.refl _ (fun ⟨_, hany⟩ => h _ hany) s

theorem Brings.congr (h : Brings context terms s r) (hiff : ∀ place, terms' place ↔ terms place) :
    Brings context terms' s r := by
  obtain rfl : terms' = terms := funext fun place => propext (hiff place)
  exact h

theorem Brings.trans (h : Brings context terms s t) (h' : Brings context terms' t r) :
    Brings context (fun place => terms place ∨ terms' place) s r :=
  (Gathers.trans h h').mono
    (fun _ hn => hn.elim (fun ⟨place, ht, hn⟩ => ⟨place, .inl ht, hn⟩)
      fun ⟨place, ht, hn⟩ => ⟨place, .inr ht, hn⟩) exists_or

theorem not_any_of_names {name : String} (h : term.Names context scope name) : term ≠ .any := by
  rintro rfl
  cases h

theorem brings_addElement {name : String} (hn : term.Names context scope name) (s : Shape)
    (item : Json) (bounds : Bounds) : Brings context (· = (scope, term)) s
      (s.addElement Slot.andThen name (.ofElement item bounds)).1 :=
  (gathers_addElement Slot.isJoin_andThen s name rfl).mono
    (fun _ ho => ⟨(scope, term), rfl, ho ▸ hn⟩)
    ⟨fun ⟨_, he⟩ => not_any_of_names hn (Prod.mk.inj he).2.symm, False.elim⟩

/-- What a group brings, a term that holds it brings. -/
theorem Brings.within (h : Brings context terms s r) {place : File × ModelGroup}
    (hg : term.Holds context.linkage scope place) :
    Brings context (fun place => place = (scope, term) ∨ terms place) s r := by
  have hne : ∀ file, (file, Term.any) ≠ (scope, term) := by
    rintro file he
    cases he
    cases hg
  exact Gathers.mono h (fun _ ⟨place, ht, hn⟩ => ⟨place, .inr ht, hn⟩) (by simp [hne])

theorem brings_any {limit : Limit} (s : Shape) :
    Brings context (Term.any.Reaches context.linkage scope limit) s { s with isOpen := true } where
  attributes := rfl
  kept _ := id
  elements _ := .inl
  isOpen := iff_of_true rfl (.inr ⟨scope, .inl rfl⟩)

theorem AreBranches.congr {branches : List Shape} (h : AreBranches context terms branches)
    (hiff : ∀ place, terms' place ↔ terms place) : AreBranches context terms' branches := by
  obtain rfl : terms' = terms := funext fun place => propext (hiff place)
  exact h

theorem areBranches_nil (h : ∀ place, ¬ terms place) : AreBranches context terms [] :=
  ⟨nofun, nofun, ⟨nofun, fun ⟨_, hany⟩ => absurd hany (h _)⟩⟩

theorem AreBranches.cons {branch : Shape} {rest : List Shape}
    (h : Brings context terms {} branch) (hrest : AreBranches context terms' rest) :
    AreBranches context (fun place => terms place ∨ terms' place) (branch :: rest) where
  attributes := List.forall_mem_cons.2 ⟨h.attributes, hrest.attributes⟩
  elements := List.forall_mem_cons.2
    ⟨fun name hn => ((h.elements name hn).resolve_left (not_hasElement_empty name)).imp
      fun _ ⟨ht, hname⟩ => ⟨.inl ht, hname⟩,
    fun _ hb name hn => (hrest.elements _ hb name hn).imp
      fun _ ⟨ht, hname⟩ => ⟨.inr ht, hname⟩⟩
  isOpen := by
    simp only [List.mem_cons, exists_eq_or_imp, hrest.isOpen, h.isOpen, Bool.false_eq_true,
      false_or, exists_or]

theorem AreBranches.withChoice {branches : List Shape} (h : AreBranches context terms branches)
    (s : Shape) (obliged : Bool) : Brings context terms s (s.withChoice branches obliged) :=
  (gathers_withChoice h.attributes s obliged).mono
    (fun name ⟨branch, hb, hn⟩ => h.elements branch hb name hn) h.isOpen.symm

/-- What a reference to a group brings is what the members of the group are collected of. -/
theorem Brings.addReference {members : Shape} (h : Brings context terms {} members) (s : Shape)
    (reference : Json) : Brings context terms s (s.addReference members reference) :=
  (gathers_addReference s h.attributes reference).mono
    (fun name hn => (h.elements name hn).resolve_left (not_hasElement_empty name))
    (by rw [h.isOpen]; simp)

end

end Shape

namespace Conversion

open Shape

variable {context : Context}

/-! ### Content models -/

/-- Whatever results has come of a shape by these terms. -/
abbrev YieldsBrought (context : Context) (terms : File × Term → Prop) (s : Shape)
    (c : Conversion Shape) : Prop :=
  Yields c (Brings context terms s)

/-- Groups are expanded to what their particles reach. -/
def GathersGroups (context : Context) (expand : Expansions) : Prop :=
  ∀ site located bounds nested s, YieldsBrought context
    (ReachedBy context.linkage located.file bounds.most located.declaration.group.particles) s
      (expand.group site located bounds nested s)

theorem brings_collectElementRef (site : Site) (reference : QName) (bounds : Bounds) (s : Shape) :
    YieldsBrought context
      ((Term.elementRef reference).Reaches context.linkage site.scope bounds.most) s
      (collectElementRef context site reference bounds s) := by
  refine (Yields.found fun located hl => hl).bind fun located hl => ?_
  refine (does_addElement context site _ _ s).yields.mono fun r hr => hr ▸ ?_
  exact (brings_addElement (.reference hl) s _ _).congr fun place =>
    Term.reaches_iff_eq nofun

theorem brings_collectGroupRef {expand : Expansions} (he : GathersGroups context expand)
    (site : Site) (reference : QName) (bounds : Bounds) (nested : Bool) (s : Shape) :
    YieldsBrought context ((Term.groupRef reference).Reaches context.linkage site.scope bounds.most)
      s (collectGroupRef context expand site reference bounds nested s) := by
  unfold collectGroupRef
  refine (Yields.found fun located hl => hl).bind fun located hl => Yields.visiting ?_
  have hholds : (Term.groupRef reference).Holds context.linkage site.scope
      (located.file, located.declaration.group) := .reference hl
  have within : ∀ r, Brings context (ReachedBy context.linkage located.file bounds.most
      located.declaration.group.particles) s r → Brings context
        ((Term.groupRef reference).Reaches context.linkage site.scope bounds.most) s r :=
    fun r hr => (hr.within hholds).congr fun place => Term.reaches_iff_of_holds hholds
  split
  · next hc =>
      simp only [Bool.and_eq_true, decide_eq_true_eq] at hc
      refine (he site located .once true {}).bind fun members hmembers => Yields.pure ?_
      exact within _ (Brings.addReference (hc.1.2 ▸ hmembers) s _)
  · exact (he site located bounds nested s).mono within

mutual

theorem brings_collectParticle {expand : Expansions} (he : GathersGroups context expand)
    (site : Site) (outer : Bounds) (nested : Bool) (s : Shape) : ∀ p : Particle,
      YieldsBrought context (p.Reaches context.linkage site.scope outer.most) s
        (collectParticle context expand site outer nested s p)
  | ⟨least, most, term⟩ => by
      unfold collectParticle
      dsimp only
      split
      · next hm =>
          exact Yields.pure (.refl (fun _ => Particle.not_reaches (p := ⟨least, most, term⟩) hm) s)
      · next hm =>
          exact (brings_collectTerm he site _ nested s term).mono fun r hr =>
            hr.congr fun place => Particle.reaches_iff (p := ⟨least, most, term⟩) hm

theorem brings_collectTerm {expand : Expansions} (he : GathersGroups context expand)
    (site : Site) (bounds : Bounds) (nested : Bool) (s : Shape) : ∀ term : Term,
      YieldsBrought context (term.Reaches context.linkage site.scope bounds.most) s
        (collectTerm context expand site bounds nested s term)
  | .element declaration => by
      unfold collectTerm
      refine Yields.bind_any fun item =>
        (does_addElement context site _ _ s).yields.mono fun r hr => hr ▸ ?_
      exact (brings_addElement .element s item bounds).congr fun place =>
        Term.reaches_iff_eq nofun
  | .elementRef reference => by
      unfold collectTerm
      exact brings_collectElementRef site reference bounds s
  | .group group => by
      unfold collectTerm
      exact (brings_collectGroup he site bounds nested s group).mono fun r hr =>
        (hr.within .nested).congr fun place => Term.reaches_iff_of_holds .nested
  | .groupRef reference => by
      unfold collectTerm
      exact brings_collectGroupRef he site reference bounds nested s
  | .any => by
      unfold collectTerm
      exact Yields.pure (brings_any s)

theorem brings_collectGroup {expand : Expansions} (he : GathersGroups context expand)
    (site : Site) (bounds : Bounds) (nested : Bool) (s : Shape) : ∀ group : ModelGroup,
      YieldsBrought context (ReachedBy context.linkage site.scope bounds.most group.particles) s
        (collectGroup context expand site bounds nested s group)
  | ⟨.choice, particles⟩ => by
      unfold collectGroup
      refine Yields.ite (Yields.bind_any fun _ => ?_) ?_
      · exact brings_collectParticles he site bounds.orNone nested s particles
      · exact (areBranches_collectBranches he site _ particles).bind fun branches hb =>
          (does_addChoice context site _ branches s).yields.mono fun r hr =>
            hr ▸ hb.withChoice s _
  | ⟨.sequence, particles⟩ => by
      unfold collectGroup
      exact brings_collectParticles he site bounds nested s particles
  | ⟨.all, particles⟩ => by
      unfold collectGroup
      exact brings_collectParticles he site bounds nested s particles

theorem brings_collectParticles {expand : Expansions} (he : GathersGroups context expand)
    (site : Site) (outer : Bounds) (nested : Bool) (s : Shape) : ∀ particles : List Particle,
      YieldsBrought context (ReachedBy context.linkage site.scope outer.most particles) s
        (collectParticles context expand site outer nested s particles)
  | [] => by
      unfold collectParticles
      exact Yields.pure (.refl (fun _ => not_reachedBy_nil) s)
  | p :: rest => by
      unfold collectParticles
      exact (brings_collectParticle he site outer nested s p).bind fun r hr =>
        (brings_collectParticles he site outer nested r rest).mono fun _ h =>
          (hr.trans h).congr fun _ => reachedBy_cons

theorem areBranches_collectBranches {expand : Expansions} (he : GathersGroups context expand)
    (site : Site) (outer : Bounds) : ∀ particles : List Particle,
      Yields (collectBranches context expand site outer particles)
        (AreBranches context (ReachedBy context.linkage site.scope outer.most particles))
  | [] => by
      unfold collectBranches
      exact Yields.pure (areBranches_nil fun _ => not_reachedBy_nil)
  | p :: rest => by
      unfold collectBranches
      refine (brings_collectParticle he site outer true {} p).bind fun branch hb =>
        (areBranches_collectBranches he site outer rest).bind fun branches hrest =>
          Yields.pure ((hrest.cons hb).congr fun _ => reachedBy_cons)

end

theorem gathersGroups_expansions (context : Context) (depth : Nat) :
    GathersGroups context (expansions context depth) := by
  induction depth with
  | zero => exact fun _ _ _ _ _ => Yields.throw
  | succ depth ih =>
      exact fun site located bounds nested s => brings_collectGroup ih
        { site with scope := located.file } bounds nested s located.declaration.group

end Conversion

end Crosswalk
