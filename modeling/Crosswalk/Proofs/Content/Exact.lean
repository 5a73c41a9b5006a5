import Crosswalk.Proofs.Content.Decision
import Crosswalk.Proofs.Content.Types

/-!
# What the constraint of a choice accepts

The content of a choice in which nothing repeats is collected into required names and constraints
that decide between the members an object can have. The induction is over the content model; it
carries along that the names collected so far are not those of what is added. What is accepted are
the members of the words of the loosened choice, no more and no less.
-/

namespace Crosswalk

open Word Shape

namespace Conversion

variable (context : Context)

/-- The members of branches are added behind the others where no name has two. -/
theorem yields_joinMembers_append (site : Site) (outside : List String) : ∀ {shape : Shape}
    (members : List (String × Slot)), (shape.names ++ members.map (·.1)).Nodup →
      (∀ name ∈ outside, name ∈ shape.names) →
      Yields (joinMembers context site outside shape members) fun r =>
        r.names = shape.names ++ members.map (·.1) ∧ r.requiredNames = shape.requiredNames ∧
          r.choices = shape.choices
  | _, [], _, _ => Yields.pure ⟨by simp, rfl, rfl⟩
  | shape, (name, slot) :: rest, hd, ho => by
      rw [List.map_cons, List.append_cons] at hd
      have hn : name ∉ shape.names := fun h =>
        (List.nodup_append'.1 (List.nodup_append'.1 hd).1).2.2 h (List.mem_singleton_self name)
      have hout : outside.contains name = false := by
        rw [Bool.eq_false_iff, Ne, List.contains_iff_mem]
        exact fun h => hn (ho name h)
      unfold joinMembers
      rw [hout, if_neg Bool.false_ne_true]
      refine (Yields.pure (P := (· = _)) rfl).bind fun t ht => ?_
      rw [addElement_eq_append _ _ hn] at ht
      have hnames : t.names = shape.names ++ [name] := ht ▸ names_append shape _
      have hrequired : t.requiredNames = shape.requiredNames := by
        rw [ht, requiredNames_append]
        simp
      have hchoices : t.choices = shape.choices := ht ▸ rfl
      refine (yields_joinMembers_append site outside rest (by rwa [hnames]) fun n h => ?_).mono
        fun r hr => ⟨?_, hr.2.1.trans hrequired, hr.2.2.trans hchoices⟩
      · exact hnames ▸ List.mem_append_left _ (ho n h)
      · rw [hr.1, hnames]
        simp

theorem yields_joinBranches_append (site : Site) (outside : List String) : ∀ {shape : Shape}
    (branches : List Shape), (shape.names ++ branches.flatMap Shape.names).Nodup →
      (∀ name ∈ outside, name ∈ shape.names) →
      Yields (joinBranches context site outside shape branches) fun r =>
        r.names = shape.names ++ branches.flatMap Shape.names ∧
          r.requiredNames = shape.requiredNames ∧ r.choices = shape.choices
  | _, [], _, _ => Yields.pure ⟨by simp, rfl, rfl⟩
  | shape, branch :: rest, hd, ho => by
      rw [List.flatMap_cons, ← List.append_assoc] at hd
      unfold joinBranches
      have joined : Yields (joinMembers context site outside
          { shape with isOpen := shape.isOpen || branch.isOpen } branch.slots) _ :=
        yields_joinMembers_append context site outside branch.slots (List.nodup_append'.1 hd).1 ho
      refine joined.bind fun t ht => ?_
      have hnames : t.names = shape.names ++ branch.names := ht.1
      refine (yields_joinBranches_append site outside rest (by rwa [hnames]) fun n h => ?_).mono
        fun r hr => ⟨?_, hr.2.1.trans ht.2.1, hr.2.2.trans ht.2.2⟩
      · exact hnames ▸ List.mem_append_left _ (ho n h)
      · rw [hr.1, hnames, List.flatMap_cons, List.append_assoc]

section

variable {context : Context} {expand : Expansions} {key : Element → String}

mutual

/-- A particle in which nothing repeats adds what decides between the members that it can have. -/
theorem yields_collectParticle_renders {site : Site} (hk : elementKey context site.scope = key)
    (nested : Bool) {shape : Shape} :
    ∀ p : Particle, p.IsSingle → (shape.names ++ p.memberNames key .one).Nodup →
      Yields (collectParticle context expand site .once nested shape p)
        (Renders (p.memberNames key .one) (p.requiredNames key) ((p.loosened key).Admits key) shape)
  | ⟨least, most, term⟩, ⟨hm, ht⟩, hd => by
      subst hm
      have honce : Bounds.times ⟨least, .one⟩ .once = ⟨least, .one⟩ := by
        have hl : least.toNat ≤ 18446744073709551615 := least.le_greatest
        have : least.times .one = least := Count.ext_toNat (by
          rw [Count.toNat_times, Count.toNat_one, Nat.mul_one]
          exact Nat.min_eq_left hl)
        rw [Bounds.times, Bounds.once, this]
        rfl
      rw [Particle.memberNames_single] at hd ⊢
      unfold collectParticle
      dsimp only
      rw [honce, if_neg Limit.one_ne_zero]
      exact yields_collectTerm_renders hk nested term ht hd

theorem yields_collectTerm_renders {site : Site} (hk : elementKey context site.scope = key)
    {least : Count} (nested : Bool) {shape : Shape} :
    ∀ term : Term, term.IsSingle least → (shape.names ++ term.memberNames key .one).Nodup →
      Yields (collectTerm context expand site ⟨least, .one⟩ nested shape term)
        (Renders (term.memberNames key .one) (term.requiredNames key least)
          ((Particle.loosened key ⟨least, .one, term⟩).Admits key) shape)
  | .element declaration, ht, hd => by
      unfold collectTerm
      refine Yields.bind_any fun item => (yields_addElement_eq context site _ _ shape).mono ?_
      rintro _ rfl
      subst hk
      have hn : elementKey context site.scope declaration ∉ shape.names := fun h =>
        (List.nodup_append'.1 hd).2.2 h (List.mem_singleton_self _)
      rw [← elementKey, addElement_eq_append Slot.andThen (.ofElement item ⟨least, .one⟩) hn]
      refine ⟨names_append shape _, ?_, [], by simp, decides_element ht declaration⟩
      rw [requiredNames_append, Term.requiredNames]
      by_cases hl : 0 < least.toNat <;> simp [Slot.ofElement, Bounds.isRequired, hl]
  | .group group, ht, hd => yields_collectGroup_renders hk nested group ht hd
  | .elementRef _, ht, _ => ht.elim
  | .groupRef _, ht, _ => ht.elim
  | .any, ht, _ => ht.elim

theorem yields_collectGroup_renders {site : Site} (hk : elementKey context site.scope = key)
    {least : Count} (nested : Bool) {shape : Shape} :
    ∀ group : ModelGroup, group.IsSingle least →
      (shape.names ++ group.memberNames key .one).Nodup →
      Yields (collectGroup context expand site ⟨least, .one⟩ nested shape group)
        (Renders (group.memberNames key .one) (group.requiredNames key)
          ((Particle.loosened key ⟨least, .one, .group group⟩).Admits key) shape)
  | ⟨.choice, particles⟩, ⟨hl, hs⟩, hd => by
      have hmembers := (List.nodup_append'.1 hd).2.1
      unfold collectGroup
      rw [if_neg Limit.not_isRepeated_one]
      refine (yields_collectBranches_renders hk particles hs hmembers).bind fun branches hb => ?_
      have hnames := flatMap_names_branches hb
      have joined := (yields_joinBranches_append context site shape.names branches
        (hnames ▸ hd) fun _ h => h).bind fun t ht =>
          show Yields (pure { t with choices := t.choices ++
              (choice? branches (decide (0 < least.toNat))).toList })
            (Renders (memberNamesOf key .one particles) []
              ((Particle.loosened key ⟨least, .one, .group ⟨.choice, particles⟩⟩).Admits key) shape)
          from Yields.pure ⟨ht.1.trans (by rw [hnames]), ht.2.1.trans (by simp), _,
            congrArg (· ++ _) ht.2.2, decides_choice hs hl hb hmembers⟩
      unfold addChoice
      exact Yields.ite (Yields.bind_any fun _ => joined) joined
  | ⟨.sequence, particles⟩, ⟨hl, hs⟩, hd => by
      subst hl
      have hlapses : Term.lapses key (.group ⟨.sequence, particles⟩) = false := rfl
      exact (yields_collectParticles_renders hk nested particles hs hd).mono fun _ hr =>
        hr.of_iff fun _ => (Particle.admits_loosened_once hlapses).symm
  | ⟨.all, particles⟩, ⟨hl, hs⟩, hd => by
      subst hl
      refine (yields_collectParticles_renders hk nested particles hs hd).mono fun _ hr =>
        hr.congr (fun w hw => ⟨w, (Particle.admits_loosened_once rfl).2 ⟨w, hw, .refl w⟩,
          fun _ => rfl⟩) fun w hw => ?_
      obtain ⟨u, hu, hp⟩ := (Particle.admits_loosened_once rfl).1 hw
      exact ⟨u, hu, count_perm hp⟩

/-- Particles that make up content together. -/
theorem yields_collectParticles_renders {site : Site} (hk : elementKey context site.scope = key)
    (nested : Bool) {shape : Shape} :
    ∀ particles : List Particle, AreSingle particles →
      (shape.names ++ memberNamesOf key .one particles).Nodup →
      Yields (collectParticles context expand site .once nested shape particles)
        (Renders (memberNamesOf key .one particles) (requiredNamesOf key particles)
          (AdmitsAll key (loosenedAll key particles)) shape)
  | [], _, _ => Yields.pure (.refl shape)
  | p :: rest, hs, hd => by
      rw [memberNamesOf, ← List.append_assoc] at hd
      unfold collectParticles
      refine (yields_collectParticle_renders hk nested p hs.1
        (List.nodup_append'.1 hd).1).bind fun t ht => ?_
      refine (yields_collectParticles_renders hk nested rest hs.2 (by rwa [ht.names])).mono
        fun r hr => ht.trans hr (fun u hu name hn => ?_) (fun v hv name hn => ?_) ?_
      · rw [← Particle.memberNames_loosened p] at hn
        exact Particle.count_eq_zero _ (Particle.IsSingle.loosened hs.1) hu hn
      · rw [← memberNamesOf_loosened rest] at hn
        exact count_eq_zero_all _ (AreSingle.loosened hs.2) hv hn
      · rw [List.append_assoc] at hd
        exact (List.nodup_append'.1 (List.nodup_append'.1 hd).2.1).2.2

/-- The branches of a choice. -/
theorem yields_collectBranches_renders {site : Site} (hk : elementKey context site.scope = key) :
    ∀ particles : List Particle, AreSingle particles → (memberNamesOf key .one particles).Nodup →
      Yields (collectBranches context expand site .once particles)
        (List.Forall₂ (IsSingleBranch key) particles)
  | [], _, _ => Yields.pure .nil
  | p :: rest, hs, hd => by
      rw [memberNamesOf, List.nodup_append'] at hd
      unfold collectBranches
      refine (yields_collectParticle_renders hk true p hs.1
        (by simpa [Shape.names] using hd.1)).bind fun branch hbranch => ?_
      exact (yields_collectBranches_renders hk rest hs.2 hd.2.1).bind
        fun branches hbranches => Yields.pure (.cons hbranch hbranches)

end

/-- What the constraint of a choice accepts that occurs at most once, if nothing repeats in it: an
object with the members of a word, where a choice with a branch that has no required name may be
left out as well, and none else. So it means exactly one branch if every such choice may be left
out, or has a branch that can be empty. -/
theorem met_choice_iff {site : Site} {nested : Bool} {shape result : Shape}
    {least : Count} {particles : List Particle} {s t : ConversionState}
    (h : run (collectGroup context expand site ⟨least, .one⟩ nested shape ⟨.choice, particles⟩) s =
      (.ok result, t))
    (hs : Particle.IsSingle ⟨least, .one, .group ⟨.choice, particles⟩⟩)
    (hd : (shape.names ++
      memberNamesOf (elementKey context site.scope) .one particles).Nodup) :
    ∃ added, result.choices = shape.choices ++ added ∧ ∀ entries : Table String Json,
      ((∀ choice ∈ added, Met entries choice) ↔
        HasMembers ((Particle.loosened (elementKey context site.scope)
            ⟨least, .one, .group ⟨.choice, particles⟩⟩).Admits (elementKey context site.scope))
          (memberNamesOf (elementKey context site.scope) .one particles) entries) ∧
      ((¬ ∀ choice ∈ added, Met entries choice) → ∃ choice ∈ added, Unmet entries choice) ∧
      (Particle.IsDefinite (elementKey context site.scope)
          ⟨least, .one, .group ⟨.choice, particles⟩⟩ →
        ((∀ choice ∈ added, Met entries choice) ↔
          HasMembers (Particle.Admits (elementKey context site.scope)
              ⟨least, .one, .group ⟨.choice, particles⟩⟩)
            (memberNamesOf (elementKey context site.scope) .one particles) entries)) := by
  obtain ⟨added, hadded, hdec⟩ :=
    (yields_collectGroup_renders rfl nested ⟨.choice, particles⟩ hs.2 hd s t result h).choices
  have hmet : ∀ entries : Table String Json, (∀ choice ∈ added, Met entries choice) ↔
      HasMembers ((Particle.loosened (elementKey context site.scope)
          ⟨least, .one, .group ⟨.choice, particles⟩⟩).Admits (elementKey context site.scope))
        (memberNamesOf (elementKey context site.scope) .one particles) entries := fun entries => by
    refine ⟨fun hmet => ?_, fun hm => (hdec.met entries hm).2⟩
    by_contra hn
    rcases hdec.unmet entries hn with ⟨name, hname, -⟩ | ⟨choice, hc, hu⟩
    · exact List.not_mem_nil hname
    · exact (hmet choice hc).not_unmet hu
  refine ⟨added, hadded, fun entries => ⟨hmet entries, fun hn => ?_, fun hdef => ?_⟩⟩
  · rcases hdec.unmet entries (mt (hmet entries).2 hn) with ⟨name, hname, -⟩ | hu
    · exact absurd hname List.not_mem_nil
    · exact hu
  · rw [hmet entries]
    exact exists_congr fun w => and_congr_left' (Particle.admits_loosened_iff _ hs hdef)

end

/-- A choice of these branches that has to be made, collected on its own. -/
def collected (particles : List Particle) : Except Problem Shape × ConversionState :=
  run (collectGroup bare (allExpansions bare) ⟨bare.file, ""⟩ .once true {} ⟨.choice, particles⟩) {}

/-- Either a, with b or c or none of them behind it, or d, which may be left out. -/
def optionalInside : List Particle :=
  [⟨.one, .one, .group ⟨.sequence,
      [child "a", ⟨.zero, .one, .group ⟨.choice, [child "b", child "c"]⟩⟩]⟩⟩,
    { child "d" with least := .zero }]

/-- A choice inside of a choice, both of which have to be made. -/
def obligedInside : List Particle :=
  [⟨.one, .one, .group ⟨.choice, [child "a", child "b"]⟩⟩, child "c"]

theorem collected_isOk :
    (collected optionalInside).1.isOk = true ∧ (collected obligedInside).1.isOk = true := by
  decide +kernel

theorem definite_optionalInside : Particle.IsDefinite (elementKey bare bare.file)
    ⟨.one, .one, .group ⟨.choice, optionalInside⟩⟩ := by
  have hd : Particle.Admits (elementKey bare bare.file) { child "d" with least := .zero } [] :=
    (Particle.admits_single_iff (Nat.zero_le 1)).2 (.inl ⟨rfl, rfl⟩)
  refine ⟨fun _ => .inr (.inr (.inl hd)), ?_⟩
  simp [Term.IsDefinite, ModelGroup.IsDefinite, AreDefinite, Particle.IsDefinite, optionalInside,
    child, Term.lapses, ModelGroup.lapses]

theorem not_hasMembers_obligedInside :
    ¬ HasMembers (Particle.Admits (elementKey bare bare.file)
      ⟨.one, .one, .group ⟨.choice, obligedInside⟩⟩) ["a", "b", "c"] [] := by
  rintro ⟨w, hw, hm⟩
  have honce : ∀ {term}, Particle.Admits (elementKey bare bare.file) ⟨.one, .one, term⟩ w →
      term.Admits (elementKey bare bare.file) w := fun h =>
    ((Particle.admits_single_iff (Nat.le_refl 1)).1 h).resolve_left fun h => absurd h.1 (by decide)
  have hchild : ∀ name ∈ ["a", "b", "c"],
      ¬ Particle.Admits (elementKey bare bare.file) (child name) w := fun name hn h => by
    obtain ⟨value, rfl⟩ := honce h
    have hcount := hm name hn
    rw [count_singleton, if_pos (by rfl)] at hcount
    exact absurd hcount (by simp [Table.contains])
  rcases honce hw with h | h | h
  · rcases honce h with h | h | h
    · exact hchild "a" (by simp) h
    · exact hchild "b" (by simp) h
    · exact h
  · exact hchild "c" (by simp) h
  · exact h

theorem met_choice_iff_inside :
    (∃ result t, collected optionalInside = (.ok result, t) ∧ ∀ entries : Table String Json,
      (∀ choice ∈ result.choices, Met entries choice) ↔
        HasMembers (Particle.Admits (elementKey bare bare.file)
          ⟨.one, .one, .group ⟨.choice, optionalInside⟩⟩) ["a", "b", "c", "d"] entries) ∧
    ∃ result t, collected obligedInside = (.ok result, t) ∧
      (∀ choice ∈ result.choices, Met [] choice) ∧
      ¬ HasMembers (Particle.Admits (elementKey bare bare.file)
          ⟨.one, .one, .group ⟨.choice, obligedInside⟩⟩) ["a", "b", "c"] [] := by
  constructor
  · obtain ⟨result, t, h⟩ := exists_of_isOk collected_isOk.1
    have hs : Particle.IsSingle ⟨.one, .one, .group ⟨.choice, optionalInside⟩⟩ := by
      simp [Particle.IsSingle, Term.IsSingle, ModelGroup.IsSingle, AreSingle, optionalInside, child]
    obtain ⟨added, hadded, hiff⟩ := met_choice_iff h hs (by decide)
    refine ⟨result, t, h, fun entries => ?_⟩
    rw [hadded]
    exact (hiff entries).2.2 definite_optionalInside
  · obtain ⟨result, t, h⟩ := exists_of_isOk collected_isOk.2
    have hs : Particle.IsSingle ⟨.one, .one, .group ⟨.choice, obligedInside⟩⟩ := by
      simp [Particle.IsSingle, Term.IsSingle, ModelGroup.IsSingle, AreSingle, obligedInside, child]
    obtain ⟨added, hadded, hiff⟩ := met_choice_iff h hs (by decide)
    refine ⟨result, t, h, ?_, not_hasMembers_obligedInside⟩
    rw [hadded]
    refine (hiff []).1.2 ⟨[], ?_, fun name _ => rfl⟩
    exact (admits_loosened_choice_iff (Nat.le_refl 1)).2 (.inl ⟨.inr rfl, rfl⟩)

end Conversion

end Crosswalk
