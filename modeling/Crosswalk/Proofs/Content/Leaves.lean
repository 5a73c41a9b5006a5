import Crosswalk.Conversion.Content
import Crosswalk.Proofs.Occurs

/-!
# Nested sequences

Sequences and all-groups can be nested in each other in many ways that mean the same: what counts
are the leaves, which are the terms that are no such group, each with the product of the bounds
around it. The bounds are limits that can be added and multiplied in any order and grouping, the
greatest count and the absent limit included; and so a content model is collected like its leaves,
one by one.
-/

namespace Crosswalk

/-- A particle inside of something that occurs itself. -/
def Particle.within (outer : Bounds) : Particle → Particle
  | ⟨least, most, term⟩ =>
    let bounds := Bounds.times ⟨least, most⟩ outer
    ⟨bounds.least, bounds.most, term⟩

mutual

/-- The leaves of a particle. -/
def Particle.leaves : Particle → List Particle
  | ⟨least, most, term⟩ => term.leaves ⟨least, most⟩

/-- The leaves of a term that occurs so often. -/
def Term.leaves (bounds : Bounds) : Term → List Particle
  | .group group => group.leaves bounds
  | term => [⟨bounds.least, bounds.most, term⟩]

/-- The leaves of a model group that occurs so often: those of its particles, or a choice as one. -/
def ModelGroup.leaves (bounds : Bounds) : ModelGroup → List Particle
  | ⟨.choice, particles⟩ => [⟨bounds.least, bounds.most, .group ⟨.choice, particles⟩⟩]
  | ⟨_, particles⟩ => leavesOf bounds particles

/-- The leaves of particles inside of something that occurs so often. -/
def leavesOf (bounds : Bounds) : List Particle → List Particle
  | [] => []
  | p :: rest => p.leaves.map (Particle.within bounds) ++ leavesOf bounds rest

end

namespace Conversion

variable (context : Context) (expand : Expansions) (site : Site) (nested : Bool)

theorem collectParticle_within (outer inner : Bounds) (shape : Shape) (p : Particle) :
    collectParticle context expand site outer nested shape (p.within inner) =
      collectParticle context expand site (inner.times outer) nested shape p := by
  obtain ⟨least, most, term⟩ := p
  simp only [Particle.within, collectParticle, ← Bounds.times_assoc]

theorem collectParticles_within (outer inner : Bounds) (shape : Shape) (ps : List Particle) :
    collectParticles context expand site outer nested shape (ps.map (Particle.within inner)) =
      collectParticles context expand site (inner.times outer) nested shape ps := by
  induction ps generalizing shape with
  | nil => simp only [List.map_nil, collectParticles]
  | cons p rest ih =>
      simp only [List.map_cons, collectParticles, collectParticle_within, ih]

theorem collectParticles_append (outer : Bounds) (shape : Shape) (ps qs : List Particle) :
    collectParticles context expand site outer nested shape (ps ++ qs) = (do
      let shape ← collectParticles context expand site outer nested shape ps
      collectParticles context expand site outer nested shape qs) := by
  induction ps generalizing shape with
  | nil => simp only [List.nil_append, collectParticles, pure_bind]
  | cons p rest ih => simp only [List.cons_append, collectParticles, ih, bind_assoc]

theorem collectParticles_singleton (outer : Bounds) (shape : Shape) (p : Particle) :
    collectParticles context expand site outer nested shape [p] =
      collectParticle context expand site outer nested shape p := by
  simp only [collectParticles, bind_pure]

/-- Nothing is collected inside of something that cannot occur. -/
theorem collectParticles_of_eq_zero {outer : Bounds} (h : outer.most = .zero) (shape : Shape)
    (ps : List Particle) :
    collectParticles context expand site outer nested shape ps = pure shape := by
  induction ps with
  | nil => rw [collectParticles]
  | cons p rest ih =>
      obtain ⟨least, most, term⟩ := p
      have hzero : (Bounds.times ⟨least, most⟩ outer).most = .zero := by
        rw [Bounds.times, h, Limit.times_comm, Limit.zero_times]
      rw [collectParticles, collectParticle]
      simp only [hzero, if_true, pure_bind, ih]

/-- A sequence or all-group is collected like its particles. -/
theorem collectParticle_group (outer bounds : Bounds) (shape : Shape) {compositor : Compositor}
    (hc : compositor ≠ .choice) (ps : List Particle) :
    collectParticle context expand site outer nested shape
        ⟨bounds.least, bounds.most, .group ⟨compositor, ps⟩⟩ =
      collectParticles context expand site (bounds.times outer) nested shape ps := by
  rw [collectParticle]
  split
  · next hzero => exact (collectParticles_of_eq_zero context expand site nested hzero shape ps).symm
  · cases compositor with
    | choice => exact absurd rfl hc
    | sequence => simp only [collectTerm, collectGroup]
    | all => simp only [collectTerm, collectGroup]

mutual

theorem collectParticle_leaves (outer : Bounds) (shape : Shape) : ∀ p : Particle,
    collectParticle context expand site outer nested shape p =
      collectParticles context expand site outer nested shape p.leaves
  | ⟨least, most, term⟩ => collectTerm_leaves outer shape ⟨least, most⟩ term

theorem collectTerm_leaves (outer : Bounds) (shape : Shape) (bounds : Bounds) : ∀ term : Term,
    collectParticle context expand site outer nested shape ⟨bounds.least, bounds.most, term⟩ =
      collectParticles context expand site outer nested shape (term.leaves bounds)
  | .group group => collectGroup_leaves outer shape bounds group
  | .element _ => (collectParticles_singleton context expand site nested outer shape _).symm
  | .elementRef _ => (collectParticles_singleton context expand site nested outer shape _).symm
  | .groupRef _ => (collectParticles_singleton context expand site nested outer shape _).symm
  | .any => (collectParticles_singleton context expand site nested outer shape _).symm

theorem collectGroup_leaves (outer : Bounds) (shape : Shape) (bounds : Bounds) :
    ∀ group : ModelGroup, collectParticle context expand site outer nested shape
        ⟨bounds.least, bounds.most, .group group⟩ =
      collectParticles context expand site outer nested shape (group.leaves bounds)
  | ⟨.choice, _⟩ => (collectParticles_singleton context expand site nested outer shape _).symm
  | ⟨.sequence, ps⟩ =>
    (collectParticle_group context expand site nested outer bounds shape (by decide) ps).trans
      (collectParticles_leavesOf outer shape bounds ps)
  | ⟨.all, ps⟩ =>
    (collectParticle_group context expand site nested outer bounds shape (by decide) ps).trans
      (collectParticles_leavesOf outer shape bounds ps)

theorem collectParticles_leavesOf (outer : Bounds) (shape : Shape) (bounds : Bounds) :
    ∀ ps : List Particle,
      collectParticles context expand site (bounds.times outer) nested shape ps =
        collectParticles context expand site outer nested shape (leavesOf bounds ps)
  | [] => by
      rw [leavesOf, collectParticles, collectParticles]
  | p :: rest => by
      rw [leavesOf, collectParticles_append, collectParticles_within, collectParticles,
        collectParticle_leaves]
      exact bind_congr fun shape => collectParticles_leavesOf outer shape bounds rest

end

/-- Limits, the greatest count and the absent one included, are an ordered commutative semiring:
sums and products are associative and commutative with the usual neutral elements, zero absorbs,
products distribute over sums, and both are monotone in the order of limits, which is linear. So it
makes no difference to what is collected how sequences and all-groups are nested: a content model is
collected like its leaves, each with the product of the bounds around it. -/
theorem limits_ordered_semiring :
    (∀ a b c : Limit, (a.plus b).plus c = a.plus (b.plus c) ∧ a.plus b = b.plus a ∧
      Limit.zero.plus a = a ∧ (a.times b).times c = a.times (b.times c) ∧
      a.times b = b.times a ∧ Limit.one.times a = a ∧ Limit.zero.times a = Limit.zero ∧
      a.times (b.plus c) = (a.times b).plus (a.times c)) ∧
    (∀ a b c : Limit, a ≤ a ∧ (a ≤ b ∨ b ≤ a) ∧ (a ≤ b → b ≤ a → a = b) ∧
      (a ≤ b → b ≤ c → a ≤ c)) ∧
    (∀ a b c d : Limit, a ≤ b → c ≤ d → a.plus c ≤ b.plus d ∧ a.times c ≤ b.times d) ∧
    ∀ (context : Context) (expand : Expansions) (site : Site) (outer : Bounds) (nested : Bool)
      (shape : Shape) (p : Particle),
      collectParticle context expand site outer nested shape p =
        collectParticles context expand site outer nested shape p.leaves := by
  refine ⟨fun a b c => ⟨Limit.plus_assoc a b c, Limit.plus_comm a b, Limit.zero_plus a,
    Limit.times_assoc a b c, Limit.times_comm a b, Limit.one_times a, Limit.zero_times a,
    Limit.times_plus a b c⟩, fun a b c => ⟨Limit.le_refl a, Limit.le_total a b,
    Limit.le_antisymm, Limit.le_trans⟩, fun a b c d h h' => ⟨Limit.plus_le_plus h h',
    Limit.times_le_times h h'⟩, fun context expand site outer nested shape p => ?_⟩
  exact collectParticle_leaves context expand site nested outer shape p

/-- The limit of as many occurrences as can be counted. -/
def countless : Limit := .bounded (.ofNat Count.greatest)

theorem limits_ordered_semiring_countless :
    countless ≤ .unbounded ∧ Limit.one ≤ countless ∧
      countless.plus .one ≤ Limit.unbounded.plus countless ∧
      countless.times .one ≤ Limit.unbounded.times countless ∧
      countless.plus countless = countless ∧ countless.times countless = countless := by
  have hle : countless ≤ .unbounded := by decide
  have hone : Limit.one ≤ countless := by decide
  obtain ⟨hplus, htimes⟩ := limits_ordered_semiring.2.2.1 _ _ _ _ hle hone
  exact ⟨hle, hone, hplus, htimes, by decide, by decide⟩

end Conversion

end Crosswalk
