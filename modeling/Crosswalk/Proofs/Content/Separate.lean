import Crosswalk.Proofs.Content.Word

/-!
# Choices apart from their surroundings

A choice that occurs at most once becomes a constraint on the names of its members. Such a choice is
apart from its surroundings if none of these names occurs beside it: within the particles that
make up content together with it, a name of the choice then always is a member of the choice. What
stands in another branch of a choice around it does not count, for it never occurs together with it.
A choice that can occur several times becomes no constraint, and its names are free.
-/

namespace Crosswalk

mutual

/-- The content is made of elements, sequences, all-groups and choices. -/
def Particle.IsPlain : Particle → Prop
  | ⟨_, _, term⟩ => term.IsPlain

def Term.IsPlain : Term → Prop
  | .element _ => True
  | .group group => group.IsPlain
  | _ => False

def ModelGroup.IsPlain : ModelGroup → Prop
  | ⟨_, particles⟩ => ArePlain particles

def ArePlain : List Particle → Prop
  | [] => True
  | p :: rest => p.IsPlain ∧ ArePlain rest

end

mutual

/-- The names of the elements in a particle within something that has a limit. -/
def Particle.memberNames (key : Element → String) (outer : Limit) : Particle → List String
  | ⟨_, most, term⟩ =>
    if most.times outer = .zero then [] else term.memberNames key (most.times outer)

def Term.memberNames (key : Element → String) (limit : Limit) : Term → List String
  | .element declaration => [key declaration]
  | .group group => group.memberNames key limit
  | _ => []

def ModelGroup.memberNames (key : Element → String) (limit : Limit) : ModelGroup → List String
  | ⟨_, particles⟩ => memberNamesOf key limit particles

def memberNamesOf (key : Element → String) (limit : Limit) : List Particle → List String
  | [] => []
  | p :: rest => p.memberNames key limit ++ memberNamesOf key limit rest

end

mutual

/-- The names that are members of a choice which is a constraint. -/
def Particle.choiceNames (key : Element → String) (outer : Limit) : Particle → List String
  | ⟨_, most, term⟩ =>
    if most.times outer = .zero then [] else term.choiceNames key (most.times outer)

def Term.choiceNames (key : Element → String) (limit : Limit) : Term → List String
  | .group group => group.choiceNames key limit
  | _ => []

def ModelGroup.choiceNames (key : Element → String) (limit : Limit) : ModelGroup → List String
  | ⟨.choice, particles⟩ => if limit.isRepeated then [] else memberNamesOf key limit particles
  | ⟨_, particles⟩ => choiceNamesOf key limit particles

def choiceNamesOf (key : Element → String) (limit : Limit) : List Particle → List String
  | [] => []
  | p :: rest => p.choiceNames key limit ++ choiceNamesOf key limit rest

end

mutual

/-- No name of a choice which is a constraint occurs beside the choice. -/
def Particle.IsSeparate (key : Element → String) (outer : Limit) : Particle → Prop
  | ⟨_, most, term⟩ => most.times outer = .zero ∨ term.IsSeparate key (most.times outer)

def Term.IsSeparate (key : Element → String) (limit : Limit) : Term → Prop
  | .group group => group.IsSeparate key limit
  | _ => True

def ModelGroup.IsSeparate (key : Element → String) (limit : Limit) : ModelGroup → Prop
  | ⟨.choice, particles⟩ => limit.isRepeated = true ∨ AreSeparate key limit particles
  | ⟨_, particles⟩ => AreApart key limit particles

/-- Each of some particles is separate within itself. -/
def AreSeparate (key : Element → String) (limit : Limit) : List Particle → Prop
  | [] => True
  | p :: rest => p.IsSeparate key limit ∧ AreSeparate key limit rest

/-- Particles that make up content together are separate, each within itself and from the others. -/
def AreApart (key : Element → String) (limit : Limit) : List Particle → Prop
  | [] => True
  | p :: rest => p.IsSeparate key limit ∧ AreApart key limit rest ∧
    (∀ name ∈ p.choiceNames key limit, name ∉ memberNamesOf key limit rest) ∧
    ∀ name ∈ p.memberNames key limit, name ∉ choiceNamesOf key limit rest

end

mutual

/-- Whether content is plain. -/
def Particle.decidableIsPlain : (p : Particle) → Decidable p.IsPlain
  | ⟨_, _, term⟩ => term.decidableIsPlain

def Term.decidableIsPlain : (term : Term) → Decidable term.IsPlain
  | .element _ => isTrue True.intro
  | .group group => group.decidableIsPlain
  | .elementRef _ => isFalse id
  | .groupRef _ => isFalse id
  | .any => isFalse id

def ModelGroup.decidableIsPlain : (group : ModelGroup) → Decidable group.IsPlain
  | ⟨_, particles⟩ => decidableArePlain particles

def decidableArePlain : (particles : List Particle) → Decidable (ArePlain particles)
  | [] => isTrue True.intro
  | p :: rest => @instDecidableAnd _ _ p.decidableIsPlain (decidableArePlain rest)

end

instance (p : Particle) : Decidable p.IsPlain := p.decidableIsPlain

mutual

/-- Whether the choices of content are separate. -/
def Particle.decidableIsSeparate (key : Element → String) (outer : Limit) :
    (p : Particle) → Decidable (p.IsSeparate key outer)
  | ⟨_, _, term⟩ => @instDecidableOr _ _ inferInstance (term.decidableIsSeparate key _)

def Term.decidableIsSeparate (key : Element → String) (limit : Limit) :
    (term : Term) → Decidable (term.IsSeparate key limit)
  | .group group => group.decidableIsSeparate key limit
  | .element _ => isTrue True.intro
  | .elementRef _ => isTrue True.intro
  | .groupRef _ => isTrue True.intro
  | .any => isTrue True.intro

def ModelGroup.decidableIsSeparate (key : Element → String) (limit : Limit) :
    (group : ModelGroup) → Decidable (group.IsSeparate key limit)
  | ⟨.choice, particles⟩ =>
    @instDecidableOr _ _ inferInstance (decidableAreSeparate key limit particles)
  | ⟨.sequence, particles⟩ => decidableAreApart key limit particles
  | ⟨.all, particles⟩ => decidableAreApart key limit particles

def decidableAreSeparate (key : Element → String) (limit : Limit) :
    (particles : List Particle) → Decidable (AreSeparate key limit particles)
  | [] => isTrue True.intro
  | p :: rest => @instDecidableAnd _ _ (p.decidableIsSeparate key limit)
      (decidableAreSeparate key limit rest)

def decidableAreApart (key : Element → String) (limit : Limit) :
    (particles : List Particle) → Decidable (AreApart key limit particles)
  | [] => isTrue True.intro
  | p :: rest => @instDecidableAnd _ _ (p.decidableIsSeparate key limit)
      (@instDecidableAnd _ _ (decidableAreApart key limit rest) inferInstance)

end

instance (key : Element → String) (outer : Limit) (p : Particle) :
    Decidable (p.IsSeparate key outer) := p.decidableIsSeparate key outer

/-- Within something that can occur several times, everything can that occurs at all. -/
theorem Limit.isRepeated_times {a b : Limit} (h : b.isRepeated = true) :
    a.times b = .zero ∨ (a.times b).isRepeated = true := by
  cases a with
  | unbounded =>
      cases b with
      | unbounded => exact .inr rfl
      | bounded d =>
          have hd : 1 < d.toNat := of_decide_eq_true h
          rw [Limit.times, if_neg (by omega)]
          exact .inr rfl
  | bounded c =>
      cases b with
      | unbounded =>
          rw [Limit.times]
          split
          · exact .inl rfl
          · exact .inr rfl
      | bounded d =>
          have hd : 1 < d.toNat := of_decide_eq_true h
          by_cases hc : c.toNat = 0
          · refine .inl (congrArg Limit.bounded (Count.ext_toNat ?_))
            simp [Count.toNat_times, hc]
          · refine .inr (decide_eq_true ?_)
            have hle : 1 * 2 ≤ c.toNat * d.toNat := Nat.mul_le_mul (by omega) hd
            have hg : 1 < Count.greatest := by decide
            rw [Count.toNat_times]
            omega

section

variable {key : Element → String}

theorem mem_memberNamesOf {limit : Limit} {particles : List Particle} {name : String} :
    name ∈ memberNamesOf key limit particles ↔ ∃ p ∈ particles, name ∈ p.memberNames key limit := by
  induction particles with
  | nil => simp [memberNamesOf]
  | cons p rest ih => simp [memberNamesOf, ih]

theorem areSeparate_iff {limit : Limit} {particles : List Particle} :
    AreSeparate key limit particles ↔ ∀ p ∈ particles, p.IsSeparate key limit := by
  induction particles with
  | nil => simp [AreSeparate]
  | cons p rest ih => simp [AreSeparate, ih]

mutual

/-- What can occur several times has no choice that is a constraint. -/
theorem Particle.choiceNames_of_isRepeated {limit : Limit} (h : limit.isRepeated = true) :
    ∀ p : Particle, p.choiceNames key limit = []
  | ⟨_, most, term⟩ => by
      rw [Particle.choiceNames]
      rcases Limit.isRepeated_times (a := most) h with hz | hr
      · rw [if_pos hz]
      · split
        · rfl
        · exact Term.choiceNames_of_isRepeated hr term

theorem Term.choiceNames_of_isRepeated {limit : Limit} (h : limit.isRepeated = true) :
    ∀ term : Term, term.choiceNames key limit = []
  | .element _ => rfl
  | .elementRef _ => rfl
  | .groupRef _ => rfl
  | .any => rfl
  | .group group => ModelGroup.choiceNames_of_isRepeated h group

theorem ModelGroup.choiceNames_of_isRepeated {limit : Limit} (h : limit.isRepeated = true) :
    ∀ group : ModelGroup, group.choiceNames key limit = []
  | ⟨.choice, _⟩ => by rw [ModelGroup.choiceNames, if_pos h]
  | ⟨.sequence, particles⟩ => choiceNamesOf_of_isRepeated h particles
  | ⟨.all, particles⟩ => choiceNamesOf_of_isRepeated h particles

theorem choiceNamesOf_of_isRepeated {limit : Limit} (h : limit.isRepeated = true) :
    ∀ particles : List Particle, choiceNamesOf key limit particles = []
  | [] => rfl
  | p :: rest => by
      rw [choiceNamesOf, Particle.choiceNames_of_isRepeated h p,
        choiceNamesOf_of_isRepeated h rest]
      rfl

end

mutual

theorem Particle.isSeparate_of_isRepeated {limit : Limit} (h : limit.isRepeated = true) :
    ∀ p : Particle, p.IsSeparate key limit
  | ⟨_, most, term⟩ =>
    (Limit.isRepeated_times (a := most) h).imp_right fun hr =>
      Term.isSeparate_of_isRepeated hr term

theorem Term.isSeparate_of_isRepeated {limit : Limit} (h : limit.isRepeated = true) :
    ∀ term : Term, term.IsSeparate key limit
  | .element _ => True.intro
  | .elementRef _ => True.intro
  | .groupRef _ => True.intro
  | .any => True.intro
  | .group group => ModelGroup.isSeparate_of_isRepeated h group

theorem ModelGroup.isSeparate_of_isRepeated {limit : Limit} (h : limit.isRepeated = true) :
    ∀ group : ModelGroup, group.IsSeparate key limit
  | ⟨.choice, _⟩ => .inl h
  | ⟨.sequence, particles⟩ => areApart_of_isRepeated h particles
  | ⟨.all, particles⟩ => areApart_of_isRepeated h particles

theorem areApart_of_isRepeated {limit : Limit} (h : limit.isRepeated = true) :
    ∀ particles : List Particle, AreApart key limit particles
  | [] => True.intro
  | p :: rest => by
      refine ⟨Particle.isSeparate_of_isRepeated h p, areApart_of_isRepeated h rest, ?_, ?_⟩
      · rw [Particle.choiceNames_of_isRepeated h p]
        exact fun _ hn => absurd hn List.not_mem_nil
      · rw [choiceNamesOf_of_isRepeated h rest]
        exact fun _ _ => List.not_mem_nil

end

end

end Crosswalk
