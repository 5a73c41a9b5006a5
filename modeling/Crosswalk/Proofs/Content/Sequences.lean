import Crosswalk.Proofs.Content.Counts
import Crosswalk.Proofs.Content.Types

/-!
# Sequences counted

Where a content model has no choices, the slot of a name says exactly how often the name occurs: its
bounds are the least and the greatest number of occurrences in the rows of the content model, as far
as they can be counted, and it is required if the name is in every row. The induction over the
content model keeps this true of the shape that is being collected, with the numbers of what is
added multiplied by the bounds of everything around it.
-/

namespace Crosswalk

namespace Shape

/-- The slots are those of names that occur, with bounds for so many occurrences. -/
structure Tallies (s : Shape) (least : String → ℕ) (most : String → ℕ∞) : Prop where
  elemental : s.IsElemental
  text : s.text = none
  le : ∀ name, least name ≤ most name
  absent : ∀ name, s.slot? name = none ↔ most name = 0
  present : ∀ name slot, s.slot? name = some slot →
    slot.bounds = .capped (least name) (most name) ∧ slot.required = decide (0 < least name)

variable {s : Shape} {least : String → ℕ} {most : String → ℕ∞}

theorem tallies_empty : Tallies {} (fun _ => 0) fun _ => 0 :=
  ⟨isElemental_empty, rfl, fun _ => le_rfl, fun _ => ⟨fun _ => rfl, fun _ => rfl⟩,
    fun _ _ h => nomatch h⟩

theorem Tallies.congr (h : s.Tallies least most) {least' : String → ℕ} {most' : String → ℕ∞}
    (hl : ∀ name, least name = least' name) (hm : ∀ name, most name = most' name) :
    s.Tallies least' most' := by
  obtain rfl := funext hl
  obtain rfl := funext hm
  exact h

/-- An element that occurs so often is added to the occurrences of its name. -/
theorem Tallies.addElement (h : s.Tallies least most) (child : String) (item : Json) {a : ℕ}
    {b : ℕ∞} (hab : a ≤ b) (hb : b ≠ 0) :
    (s.addElement Slot.andThen child (.ofElement item (.capped a b))).1.Tallies
      (fun name => least name + if name = child then a else 0)
      (fun name => most name + if name = child then b else 0) := by
  have hslot := fun name =>
    slot?_addElement h.elemental Slot.andThen child (.ofElement item (.capped a b)) name
  refine ⟨h.elemental.addElement Slot.andThen (fun _ _ => rfl) child rfl, ?_, fun name => ?_,
    fun name => ?_, fun name slot hs => ?_⟩
  · rw [addElement_eq h.elemental]
    exact h.text
  · split
    · rw [Nat.cast_add]
      exact add_le_add (h.le name) hab
    · simpa using h.le name
  · rw [hslot]
    split
    · simp [hb]
    · simpa using h.absent name
  · rw [hslot] at hs
    split at hs
    · next hname =>
        subst hname
        obtain rfl := Option.some.inj hs
        rw [if_pos rfl, if_pos rfl]
        cases hold : s.slot? name with
        | none =>
            have hm := (h.absent name).1 hold
            have hl : least name = 0 := by
              have hle := h.le name
              rw [hm] at hle
              exact_mod_cast nonpos_iff_eq_zero.1 hle
            rw [hm, hl, zero_add, zero_add]
            exact ⟨rfl, Bounds.isRequired_capped a b⟩
        | some old =>
            obtain ⟨hbounds, hrequired⟩ := h.present name old hold
            refine ⟨?_, ?_⟩
            · rw [Bounds.capped_add, ← hbounds]
              rfl
            · have hjoin : (old.andThen (.ofElement item (.capped a b))).required =
                  (old.required || (Bounds.capped a b).isRequired) := rfl
              rw [Option.elim_some, hjoin, hrequired, Bounds.isRequired_capped,
                ← Bool.decide_or]
              exact decide_eq_decide.2 (by omega)
    · next hname =>
        obtain ⟨hbounds, hrequired⟩ := h.present name slot hs
        rw [if_neg hname, if_neg hname, add_zero, add_zero]
        exact ⟨hbounds, hrequired⟩

/-- The occurrences in rows of content, repeated so often, are added to those that were there. -/
def Adds (A : List String → Prop) (a : ℕ) (b : ℕ∞) (least : String → ℕ) (most : String → ℕ∞)
    (r : Shape) : Prop :=
  ∃ (least' : String → ℕ) (most' : String → ℕ∞),
    (∀ name, Ranges A name (least' name) (most' name)) ∧
    r.Tallies (fun name => least name + least' name * a) fun name => most name + most' name * b

theorem Adds.congr {A B : List String → Prop} {a : ℕ} {b : ℕ∞} {r : Shape}
    (h : Adds A a b least most r) (hAB : ∀ u, A u → ∃ v, B v ∧ v.Perm u)
    (hBA : ∀ v, B v → ∃ u, A u ∧ u.Perm v) : Adds B a b least most r := by
  obtain ⟨least', most', hr, ht⟩ := h
  refine ⟨least', most', fun name => (hr name).congr (fun u hu => ?_) fun v hv => ?_, ht⟩
  · obtain ⟨v, hv, hp⟩ := hAB u hu
    exact ⟨v, hv, hp.count_eq name⟩
  · obtain ⟨u, hu, hp⟩ := hBA v hv
    exact ⟨u, hu, hp.count_eq name⟩

/-- Nothing is added. -/
theorem Adds.nil (h : s.Tallies least most) (a : ℕ) (b : ℕ∞) :
    Adds (· = []) a b least most s :=
  ⟨fun _ => 0, fun _ => 0, Ranges.nil, h.congr (fun _ => by simp) fun _ => by simp⟩

/-- One child is added. -/
theorem Tallies.adds (h : s.Tallies least most) (child : String) (item : Json) {a : ℕ} {b : ℕ∞}
    (hab : a ≤ b) (hb : b ≠ 0) :
    Adds (· = [child]) a b least most
      (s.addElement Slot.andThen child (.ofElement item (.capped a b))).1 := by
  refine ⟨_, _, Ranges.singleton child, (h.addElement child item hab hb).congr (fun name => ?_)
    fun name => ?_⟩
  · rw [ite_mul, one_mul, zero_mul]
  · rw [ite_mul, one_mul, zero_mul]

/-- What repeats in something that is repeated itself is repeated as often as both. -/
theorem Adds.repeated {A : List String → Prop} {a c : ℕ} {b d : ℕ∞} {r : Shape} (hcd : c ≤ d)
    (h : Adds A (c * a) (d * b) least most r) : Adds (Repeated c d A) a b least most r := by
  obtain ⟨least', most', hr, ht⟩ := h
  refine ⟨_, _, fun name => (hr name).repeated hcd, ht.congr (fun name => ?_) fun name => ?_⟩
  · rw [mul_left_comm, mul_assoc]
  · rw [mul_left_comm, mul_assoc]

end Shape

namespace Conversion

open Shape

variable {context : Context} {expand : Expansions}

/-- The name of the child that a term stands for, if it is an element or a reference to one. -/
def childName? (context : Context) (scope : File) : Term → Option String
  | .element declaration => some (elementKey context scope declaration)
  | .elementRef reference => (context.linkage.element? scope reference).map fun located =>
      propertyName context located.file located.declaration.name located.declaration.qualified
  | _ => none

/-- Content is added behind other content. -/
theorem yields_append_adds {A B : List String → Prop} {a : ℕ} {b : ℕ∞} {least : String → ℕ}
    {most : String → ℕ∞} {t : Shape} {c : Conversion Shape} (h : Adds A a b least most t)
    (hc : ∀ {least most}, t.Tallies least most → Yields c (Adds B a b least most)) :
    Yields c (Adds (fun row => ∃ u v, A u ∧ B v ∧ row = u ++ v) a b least most) := by
  obtain ⟨least', most', hr, ht⟩ := h
  refine (hc ht).mono fun r ⟨least'', most'', hr', ht'⟩ =>
    ⟨_, _, fun name => (hr name).append (hr' name), ht'.congr (fun name => ?_) fun name => ?_⟩
  · rw [Nat.add_mul, Nat.add_assoc]
  · rw [add_mul, add_assoc]

/-- One child is added, under the name that the term stands for. -/
theorem yields_addElement_adds (site : Site) {name? : Term → Option String} {term : Term}
    {child : String} (hn : name? term = some child) {a : ℕ} {b : ℕ∞} (hab : a ≤ b) (hb : b ≠ 0)
    {shape : Shape} {least : String → ℕ} {most : String → ℕ∞} (hs : shape.Tallies least most)
    (item : Json) :
    Yields (addElement context site child (.ofElement item (.capped a b)) shape)
      (Adds (fun row => ∃ name, name? term = some name ∧ row = [name]) a b least most) := by
  refine (yields_addElement_eq context site _ _ shape).mono ?_
  rintro _ rfl
  refine (hs.adds child item hab hb).congr (fun u hu => ⟨u, ⟨child, hn, hu⟩, .refl u⟩) ?_
  rintro _ ⟨name, hname, rfl⟩
  exact ⟨[child], rfl, Option.some.inj (hn.symm.trans hname) ▸ .refl _⟩

section

variable {site : Site}

mutual

/-- A particle adds the occurrences in its rows. -/
theorem yields_collectParticle_adds {a : ℕ} {b : ℕ∞} (hab : a ≤ b) (hb : b ≠ 0) (nested : Bool)
    {shape : Shape} {least : String → ℕ} {most : String → ℕ∞} (hs : shape.Tallies least most) :
    ∀ p : Particle, p.IsSequential →
      Yields (collectParticle context expand site (.capped a b) nested shape p)
        (Adds (p.Spells (childName? context site.scope)) a b least most)
  | ⟨lower, upper, term⟩, hp => by
      have hbounds : Bounds.times ⟨lower, upper⟩ (.capped a b) =
          .capped (lower.toNat * a) (upper.toENat * b) := by
        have heq : (⟨lower, upper⟩ : Bounds) = .capped lower.toNat upper.toENat := by
          rw [Bounds.capped, Count.ofNat_toNat, Limit.ofENat_toENat]
        rw [heq, Bounds.capped_mul]
      have hzero : (Bounds.capped (lower.toNat * a) (upper.toENat * b)).most = .zero ↔
          upper.toENat = 0 := by
        rw [Bounds.capped, Limit.ofENat_eq_zero_iff, mul_eq_zero, or_iff_left hb]
      unfold collectParticle
      rw [hbounds]
      dsimp only
      split
      · next hmost =>
          rw [hzero] at hmost
          refine Yields.pure ((Adds.nil hs a b).congr (fun u hu => ⟨[], ?_, ?_⟩) fun v hv => ?_)
          · refine ⟨[], ?_, zero_le, fun _ h => absurd h List.not_mem_nil, rfl⟩
            have hlower := hp.1
            rw [hmost] at hlower
            exact_mod_cast hlower
          · exact hu ▸ .refl _
          · obtain ⟨rows, -, hupper, -, rfl⟩ := hv
            rw [hmost] at hupper
            have hnil : rows = [] :=
              List.length_eq_zero_iff.1 (Nat.le_zero.1 (by exact_mod_cast hupper))
            exact ⟨[], rfl, hnil ▸ .refl _⟩
      · next hmost =>
          rw [hzero] at hmost
          refine (yields_collectTerm_adds ?_ (mul_ne_zero hmost hb) nested hs term hp.2).mono
            fun r hr => hr.repeated hp.1
          rw [Nat.cast_mul]
          exact mul_le_mul' hp.1 hab

theorem yields_collectTerm_adds {a : ℕ} {b : ℕ∞} (hab : a ≤ b) (hb : b ≠ 0) (nested : Bool)
    {shape : Shape} {least : String → ℕ} {most : String → ℕ∞} (hs : shape.Tallies least most) :
    ∀ term : Term, term.IsSequential →
      Yields (collectTerm context expand site (.capped a b) nested shape term)
        (Adds (term.Spells (childName? context site.scope)) a b least most)
  | .element declaration, _ => by
      unfold collectTerm
      exact Yields.bind_any fun item => yields_addElement_adds site rfl hab hb hs item
  | .elementRef reference, _ => by
      refine Yields.bind (P := fun located => context.linkage.element? site.scope reference =
        some located) (Yields.found fun _ h => h) fun located hl => ?_
      refine yields_addElement_adds site ?_ hab hb hs _
      rw [childName?, hl, Option.map_some]
  | .group group, hp => yields_collectGroup_adds hab hb nested hs group hp
  | .groupRef _, hp => hp.elim
  | .any, hp => hp.elim

theorem yields_collectGroup_adds {a : ℕ} {b : ℕ∞} (hab : a ≤ b) (hb : b ≠ 0) (nested : Bool)
    {shape : Shape} {least : String → ℕ} {most : String → ℕ∞} (hs : shape.Tallies least most) :
    ∀ group : ModelGroup, group.IsSequential →
      Yields (collectGroup context expand site (.capped a b) nested shape group)
        (Adds (group.Spells (childName? context site.scope)) a b least most)
  | ⟨.choice, _⟩, hp => absurd rfl hp.1
  | ⟨.sequence, particles⟩, hp => yields_collectParticles_adds hab hb nested hs particles hp.2
  | ⟨.all, particles⟩, hp =>
      (yields_collectParticles_adds hab hb nested hs particles hp.2).mono fun _ h =>
        h.congr (fun u hu => ⟨u, ⟨u, hu, .refl u⟩, .refl u⟩) fun _ ⟨u, hu, hp⟩ => ⟨u, hu, hp.symm⟩

theorem yields_collectParticles_adds {a : ℕ} {b : ℕ∞} (hab : a ≤ b) (hb : b ≠ 0) (nested : Bool)
    {shape : Shape} {least : String → ℕ} {most : String → ℕ∞} (hs : shape.Tallies least most) :
    ∀ particles : List Particle, AreSequential particles →
      Yields (collectParticles context expand site (.capped a b) nested shape particles)
        (Adds (SpellsAll (childName? context site.scope) particles) a b least most)
  | [], _ => Yields.pure (Adds.nil hs a b)
  | p :: rest, hp => by
      unfold collectParticles
      exact (yields_collectParticle_adds hab hb nested hs p hp.1).bind fun t ht =>
        yields_append_adds ht fun ht' => yields_collectParticles_adds hab hb nested ht' rest hp.2

end

end

/-! ### Types with sequences -/

variable {site : Site} {type : ComplexType}

/-- The slots of elements are those of the names in the rows of the content. -/
theorem yields_collectComplex_adds {p : Particle} (hc : type.content = .particle p)
    (hp : p.IsSequential) :
    Yields (collectComplex context expand site .everything {} type) fun r =>
      ∃ s, Overlays s r ∧ Adds (p.Spells (childName? context site.scope)) 1 1 (fun _ => 0)
        (fun _ => 0) s := by
  refine (yields_collectComplex_overlays ?_).mono fun r ⟨s, _, ha, ho⟩ => ⟨s, ho, ha⟩
  rw [hc]
  unfold collectContent
  exact (yields_collectParticle_adds le_rfl one_ne_zero false tallies_empty p hp).mono
    fun s hs => ⟨(hs : Adds _ _ _ _ _ s).choose_spec.choose_spec.2.elemental, hs⟩

/-- Where a type has no choices, its slots say exactly how often the names of its elements occur:
a name has a slot if it is in some row, the bounds are the least and the greatest number of times
that it is, and it is required if it is in every row. -/
theorem slots_exact {s t : ConversionState} {shape : Shape} {p : Particle}
    (h : run (collectComplex context expand site .everything {} type) s = (.ok shape, t))
    (hc : type.content = .particle p) (hp : p.IsSequential) {name : String}
    (hn : ∀ slot, shape.slot? name = some slot → slot.isAttribute = false) :
    ((∃ slot, shape.slot? name = some slot) ↔
      ∃ row, p.Spells (childName? context site.scope) row ∧ name ∈ row) ∧
    (∀ slot, shape.slot? name = some slot →
      slot.bounds.IsExact (p.Spells (childName? context site.scope)) name) ∧
    (name ∈ shape.requiredProperties context.options.textProperty ↔
      ∀ row, p.Spells (childName? context site.scope) row → name ∈ row) := by
  obtain ⟨s, ho, least, most, hr, ht⟩ := yields_collectComplex_adds hc hp s t shape h
  replace ht : s.Tallies least most := ht.congr (fun _ => by simp) fun _ => by simp
  -- No attribute has the name, so that its slot is that of the content.
  have hslot : shape.slot? name = s.slot? name := by
    by_cases hmem : name ∈ s.names
    · exact ho.kept name hmem
    · rw [slot?_eq_none_iff.2 hmem, Option.eq_none_iff_forall_not_mem]
      intro slot hs
      exact absurd (hn slot hs) (by simp [(ho.added name slot hmem hs).1])
  have hrequired : name ∈ shape.requiredProperties context.options.textProperty ↔
      ∃ slot, s.slot? name = some slot ∧ slot.required = true := by
    rw [requiredProperties, ho.text, ht.text, ← hslot]
    exact mem_requiredNames_iff ho.nodup
  rw [hslot, hrequired, (hr name).exists_mem_iff, (hr name).forall_mem_iff]
  refine ⟨?_, fun slot hs => ?_, ?_⟩
  · rw [← not_iff_not, not_ne_iff, ← ht.absent, Option.eq_none_iff_forall_ne_some, not_exists]
  · exact (ht.present name slot hs).1 ▸ Bounds.isExact_capped (hr name)
  · constructor
    · rintro ⟨slot, hs, hreq⟩
      exact of_decide_eq_true ((ht.present name slot hs).2.symm.trans hreq)
    · intro hpos
      have hmost : most name ≠ 0 := fun h => by
        have hle := ht.le name
        rw [h] at hle
        exact hpos.ne' (by exact_mod_cast nonpos_iff_eq_zero.1 hle)
      obtain ⟨slot, hs⟩ := Option.ne_none_iff_exists'.1 (mt (ht.absent name).1 hmost)
      exact ⟨slot, hs, (ht.present name slot hs).2.trans (decide_eq_true hpos)⟩

/-- A sequence that occurs up to three times, with an element on both sides of one that repeats. -/
def tripled : Particle :=
  ⟨.one, .bounded (.ofNat 3), .group ⟨.sequence,
    [child "a", ⟨.zero, .unbounded, .group ⟨.all, [child "b"]⟩⟩, child "a"]⟩⟩

/-- What a type with such content, and an attribute, is converted to. -/
def tripledShape : Except Problem Shape × ConversionState :=
  run (collectComplex bare (allExpansions bare) ⟨bare.file, ""⟩ .everything {}
    ⟨.particle tripled, [.declared ⟨⟨"", "id"⟩, false, none, none, none, none⟩ .required], false,
      false⟩) {}

theorem tripledShape_elements : tripledShape.1.toOption.any (fun shape =>
    (shape.slot? "a").all fun slot => !slot.isAttribute) = true := by decide +kernel

theorem slots_exact_tripled : ∃ shape t, tripledShape = (.ok shape, t) ∧
    ((∃ slot, shape.slot? "a" = some slot) ↔
      ∃ row, tripled.Spells (childName? bare bare.file) row ∧ "a" ∈ row) ∧
    (∀ slot, shape.slot? "a" = some slot →
      slot.bounds.IsExact (tripled.Spells (childName? bare bare.file)) "a") ∧
    ("a" ∈ shape.requiredProperties "#text" ↔
      ∀ row, tripled.Spells (childName? bare bare.file) row → "a" ∈ row) := by
  have helements := tripledShape_elements
  rcases hrun : tripledShape with ⟨r, t⟩
  rw [hrun] at helements
  cases r with
  | error problem => exact nomatch helements
  | ok shape =>
      refine ⟨shape, t, rfl, slots_exact hrun rfl ?_ fun slot hs => ?_⟩
      · simp only [tripled, child, Particle.IsSequential, Term.IsSequential,
          ModelGroup.IsSequential, AreSequential]
        decide
      · simpa [Except.toOption, hs] using helements

end Conversion

end Crosswalk
