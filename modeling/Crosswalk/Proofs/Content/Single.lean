import Crosswalk.Proofs.Content.Separate

/-!
# Content in which nothing repeats

Of elements, sequences and choices that occur at most once each, only the names matter that a word
has. A sequence has the names of each of its particles, and a choice those of one branch. What has
to be there in any case are the elements outside of choices that may not be left out; the members of
a choice are each not required.

That is all that the constraint of a choice around it is told about a branch. A branch without any
name of its own that is required counts as one that can be empty, also if it holds a choice that has
to be made. `Particle.loosened` is the content with every such choice made optional, and content is
definite if that changes nothing: what lapses may be left out, or can be empty in fact.
-/

namespace Crosswalk

open Word

/-! ### Single content -/

mutual

/-- The content is made of elements that occur at most once, sequences that occur exactly once, and
choices that occur at most once. -/
def Particle.IsSingle : Particle → Prop
  | ⟨least, most, term⟩ => most = .one ∧ term.IsSingle least

def Term.IsSingle (least : Count) : Term → Prop
  | .element _ => least.toNat ≤ 1
  | .group group => group.IsSingle least
  | _ => False

def ModelGroup.IsSingle (least : Count) : ModelGroup → Prop
  | ⟨.choice, particles⟩ => least.toNat ≤ 1 ∧ AreSingle particles
  | ⟨_, particles⟩ => least = .one ∧ AreSingle particles

def AreSingle : List Particle → Prop
  | [] => True
  | p :: rest => p.IsSingle ∧ AreSingle rest

end

mutual

/-- The names that every word has, apart from those of choices. -/
def Particle.requiredNames (key : Element → String) : Particle → List String
  | ⟨least, _, term⟩ => term.requiredNames key least

def Term.requiredNames (key : Element → String) (least : Count) : Term → List String
  | .element declaration => if 0 < least.toNat then [key declaration] else []
  | .group group => group.requiredNames key
  | _ => []

def ModelGroup.requiredNames (key : Element → String) : ModelGroup → List String
  | ⟨.choice, _⟩ => []
  | ⟨_, particles⟩ => requiredNamesOf key particles

def requiredNamesOf (key : Element → String) : List Particle → List String
  | [] => []
  | p :: rest => p.requiredNames key ++ requiredNamesOf key rest

end

/-- Whether a choice has no branch at all, or one without a required name. -/
def ModelGroup.lapses (key : Element → String) : ModelGroup → Bool
  | ⟨.choice, particles⟩ =>
    particles.isEmpty || particles.any fun p => (p.requiredNames key).isEmpty
  | _ => false

def Term.lapses (key : Element → String) : Term → Bool
  | .group g => g.lapses key
  | _ => false

mutual

/-- The content with every choice optional that lapses. -/
def Particle.loosened (key : Element → String) : Particle → Particle
  | ⟨least, most, term⟩ =>
    ⟨if term.lapses key then .zero else least, most, term.loosened key⟩

def Term.loosened (key : Element → String) : Term → Term
  | .group group => .group (group.loosened key)
  | .element declaration => .element declaration
  | .elementRef name => .elementRef name
  | .groupRef name => .groupRef name
  | .any => .any

def ModelGroup.loosened (key : Element → String) : ModelGroup → ModelGroup
  | ⟨compositor, particles⟩ => ⟨compositor, loosenedAll key particles⟩

def loosenedAll (key : Element → String) : List Particle → List Particle
  | [] => []
  | p :: rest => p.loosened key :: loosenedAll key rest

end

mutual

/-- Every choice that lapses may be left out, or has a branch that can be empty. -/
def Particle.IsDefinite (key : Element → String) : Particle → Prop
  | ⟨least, _, term⟩ =>
    (term.lapses key = true → least = .zero ∨ term.Admits key []) ∧ term.IsDefinite key

def Term.IsDefinite (key : Element → String) : Term → Prop
  | .group group => group.IsDefinite key
  | _ => True

def ModelGroup.IsDefinite (key : Element → String) : ModelGroup → Prop
  | ⟨_, particles⟩ => AreDefinite key particles

def AreDefinite (key : Element → String) : List Particle → Prop
  | [] => True
  | p :: rest => p.IsDefinite key ∧ AreDefinite key rest

end

section

variable {key : Element → String} {w : Word} {least : Count} {term : Term}

theorem Limit.not_isRepeated_one : ¬ Limit.one.isRepeated = true := by decide

theorem Limit.permits_one_iff {n : Nat} : Limit.one.Permits n ↔ n ≤ 1 := by
  refine ⟨fun h => Limit.le_one_of_permits (l := .one) (by decide) h, fun h => .inl h⟩

theorem areSingle_iff {particles : List Particle} :
    AreSingle particles ↔ ∀ p ∈ particles, p.IsSingle := by
  induction particles with
  | nil => simp [AreSingle]
  | cons p rest ih => simp [AreSingle, ih]

/-- What occurs at most once is left out, or is a word of the term. -/
theorem Particle.admits_single_iff (hl : least.toNat ≤ 1) :
    Particle.Admits key ⟨least, .one, term⟩ w ↔
      (least = .zero ∧ w = []) ∨ term.Admits key w := by
  rw [Particle.Admits]
  constructor
  · rintro ⟨ws, hb, hws, rfl⟩
    match ws with
    | [] => exact .inl ⟨Count.ext_toNat (Nat.le_zero.1 hb.least), rfl⟩
    | [u] => exact .inr (by simpa using hws)
    | _ :: _ :: _ => exact absurd (Limit.permits_one_iff.1 hb.most) (by simp)
  · rintro (⟨rfl, rfl⟩ | hw)
    · exact ⟨[], ⟨Nat.le_refl 0, Limit.permits_zero _⟩, by simp, rfl⟩
    · exact ⟨[w], ⟨hl, Limit.permits_one_iff.2 (Nat.le_refl 1)⟩, by simpa, by simp⟩

theorem Particle.memberNames_single :
    Particle.memberNames key .one ⟨least, .one, term⟩ = term.memberNames key .one := by
  have hone : Limit.one.times .one = .one := by decide
  rw [Particle.memberNames, hone, if_neg Limit.one_ne_zero]

mutual

theorem Particle.requiredNames_subset : ∀ p : Particle, p.IsSingle →
    ∀ name ∈ p.requiredNames key, name ∈ p.memberNames key .one
  | ⟨_, _, term⟩, ⟨hm, ht⟩, name, hn => by
      subst hm
      rw [Particle.memberNames_single]
      exact Term.requiredNames_subset term ht name hn

theorem Term.requiredNames_subset {least : Count} : ∀ term : Term, term.IsSingle least →
    ∀ name ∈ term.requiredNames key least, name ∈ term.memberNames key .one
  | .element _, _, name, hn => by
      rw [Term.requiredNames] at hn
      split at hn
      · exact hn
      · exact absurd hn List.not_mem_nil
  | .group group, ht, name, hn => ModelGroup.requiredNames_subset group ht name hn
  | .elementRef _, ht, _, _ => ht.elim
  | .groupRef _, ht, _, _ => ht.elim
  | .any, ht, _, _ => ht.elim

theorem ModelGroup.requiredNames_subset {least : Count} : ∀ group : ModelGroup,
    group.IsSingle least → ∀ name ∈ group.requiredNames key, name ∈ group.memberNames key .one
  | ⟨.choice, _⟩, _, _, hn => absurd hn List.not_mem_nil
  | ⟨.sequence, particles⟩, hg, name, hn => requiredNamesOf_subset particles hg.2 name hn
  | ⟨.all, particles⟩, hg, name, hn => requiredNamesOf_subset particles hg.2 name hn

theorem requiredNamesOf_subset : ∀ particles : List Particle, AreSingle particles →
    ∀ name ∈ requiredNamesOf key particles, name ∈ memberNamesOf key .one particles
  | [], _, _, hn => absurd hn List.not_mem_nil
  | p :: rest, hp, name, hn => by
      rw [memberNamesOf, List.mem_append]
      exact (List.mem_append.1 hn).imp (Particle.requiredNames_subset p hp.1 name)
        (requiredNamesOf_subset rest hp.2 name)

end

mutual

/-- A word has no names but those of members. -/
theorem Particle.count_eq_zero : ∀ p : Particle, p.IsSingle → ∀ {w : Word}, p.Admits key w →
    ∀ {name : String}, name ∉ p.memberNames key .one → w.count name = 0
  | ⟨least, _, term⟩, ⟨hm, ht⟩, w, hw, name, hn => by
      subst hm
      rw [Particle.memberNames_single] at hn
      obtain ⟨ws, -, hws, rfl⟩ := hw
      induction ws with
      | nil => rfl
      | cons u ws ih =>
          rw [List.forall_mem_cons] at hws
          rw [List.flatten_cons, count_append, Term.count_eq_zero term ht hws.1 hn, ih hws.2]

theorem Term.count_eq_zero {least : Count} : ∀ term : Term, term.IsSingle least →
    ∀ {w : Word}, term.Admits key w → ∀ {name : String}, name ∉ term.memberNames key .one →
      w.count name = 0
  | .element _, _, _, ⟨_, hw⟩, _, hn => by
      rw [hw, count_singleton, if_neg fun h => hn (List.mem_singleton.2 h.symm)]
  | .group group, ht, _, hw, _, hn => ModelGroup.count_eq_zero group ht hw hn
  | .elementRef _, ht, _, _, _, _ => ht.elim
  | .groupRef _, ht, _, _, _, _ => ht.elim
  | .any, ht, _, _, _, _ => ht.elim

theorem ModelGroup.count_eq_zero {least : Count} : ∀ group : ModelGroup, group.IsSingle least →
    ∀ {w : Word}, group.Admits key w → ∀ {name : String}, name ∉ group.memberNames key .one →
      w.count name = 0
  | ⟨.choice, particles⟩, hg, _, hw, _, hn => count_eq_zero_one particles hg.2 hw hn
  | ⟨.sequence, particles⟩, hg, _, hw, _, hn => count_eq_zero_all particles hg.2 hw hn
  | ⟨.all, particles⟩, hg, _, ⟨_, hw, hp⟩, name, hn => by
      rw [count_perm hp name, count_eq_zero_all particles hg.2 hw hn]

theorem count_eq_zero_all : ∀ particles : List Particle, AreSingle particles →
    ∀ {w : Word}, AdmitsAll key particles w →
      ∀ {name : String}, name ∉ memberNamesOf key .one particles → w.count name = 0
  | [], _, w, hw, name, _ => by rw [show w = [] from hw, count_nil]
  | p :: rest, hp, _, ⟨u, v, hu, hv, hw⟩, name, hn => by
      rw [memberNamesOf, List.mem_append, not_or] at hn
      rw [hw, count_append, Particle.count_eq_zero p hp.1 hu hn.1,
        count_eq_zero_all rest hp.2 hv hn.2]

theorem count_eq_zero_one : ∀ particles : List Particle, AreSingle particles →
    ∀ {w : Word}, AdmitsOne key particles w →
      ∀ {name : String}, name ∉ memberNamesOf key .one particles → w.count name = 0
  | [], _, _, hw, _, _ => hw.elim
  | p :: rest, hp, _, hw, name, hn => by
      rw [memberNamesOf, List.mem_append, not_or] at hn
      rcases hw with hw | hw
      · exact Particle.count_eq_zero p hp.1 hw hn.1
      · exact count_eq_zero_one rest hp.2 hw hn.2

end

/-! ### Loosened content -/

/-- What occurs exactly once and does not lapse. -/
theorem Particle.admits_loosened_once (hl : term.lapses key = false) :
    (Particle.loosened key ⟨.one, .one, term⟩).Admits key w ↔
      (term.loosened key).Admits key w := by
  rw [Particle.loosened, hl, if_neg Bool.false_ne_true, Particle.admits_single_iff (Nat.le_refl 1)]
  exact or_iff_right fun h => absurd h.1 (by decide)

mutual

theorem Particle.IsSingle.loosened : ∀ {p : Particle}, p.IsSingle → (p.loosened key).IsSingle
  | ⟨least, _, term⟩, ⟨hm, ht⟩ => by
      refine ⟨hm, ?_⟩
      split
      · next hl => exact Term.IsSingle.loosened_zero hl ht
      · exact Term.IsSingle.loosened ht

theorem Term.IsSingle.loosened {least : Count} : ∀ {term : Term}, term.IsSingle least →
    (term.loosened key).IsSingle least
  | .element _, ht => ht
  | .group _, ht => ModelGroup.IsSingle.loosened ht
  | .elementRef _, ht => ht
  | .groupRef _, ht => ht
  | .any, ht => ht

theorem ModelGroup.IsSingle.loosened {least : Count} : ∀ {group : ModelGroup},
    group.IsSingle least → (group.loosened key).IsSingle least
  | ⟨.choice, _⟩, hg => ⟨hg.1, AreSingle.loosened hg.2⟩
  | ⟨.sequence, _⟩, hg => ⟨hg.1, AreSingle.loosened hg.2⟩
  | ⟨.all, _⟩, hg => ⟨hg.1, AreSingle.loosened hg.2⟩

/-- What lapses is a choice, and may be left out. -/
theorem Term.IsSingle.loosened_zero {least : Count} : ∀ {term : Term}, term.lapses key = true →
    term.IsSingle least → (term.loosened key).IsSingle .zero
  | .group ⟨.choice, _⟩, _, ht => ⟨Nat.zero_le 1, AreSingle.loosened ht.2⟩
  | .group ⟨.sequence, _⟩, hl, _ => nomatch hl
  | .group ⟨.all, _⟩, hl, _ => nomatch hl
  | .element _, hl, _ => nomatch hl
  | .elementRef _, hl, _ => nomatch hl
  | .groupRef _, hl, _ => nomatch hl
  | .any, hl, _ => nomatch hl

theorem AreSingle.loosened : ∀ {particles : List Particle}, AreSingle particles →
    AreSingle (loosenedAll key particles)
  | [], _ => True.intro
  | _ :: _, hp => ⟨Particle.IsSingle.loosened hp.1, AreSingle.loosened hp.2⟩

end

mutual

theorem Particle.memberNames_loosened {limit : Limit} : ∀ p : Particle,
    (p.loosened key).memberNames key limit = p.memberNames key limit
  | ⟨_, most, term⟩ => by
      rw [Particle.loosened, Particle.memberNames, Particle.memberNames,
        Term.memberNames_loosened term]

theorem Term.memberNames_loosened {limit : Limit} : ∀ term : Term,
    (term.loosened key).memberNames key limit = term.memberNames key limit
  | .element _ => rfl
  | .elementRef _ => rfl
  | .groupRef _ => rfl
  | .any => rfl
  | .group group => ModelGroup.memberNames_loosened group

theorem ModelGroup.memberNames_loosened {limit : Limit} : ∀ group : ModelGroup,
    (group.loosened key).memberNames key limit = group.memberNames key limit
  | ⟨_, particles⟩ => memberNamesOf_loosened particles

theorem memberNamesOf_loosened {limit : Limit} : ∀ particles : List Particle,
    memberNamesOf key limit (loosenedAll key particles) = memberNamesOf key limit particles
  | [] => rfl
  | p :: rest => by
      rw [loosenedAll, memberNamesOf, memberNamesOf, Particle.memberNames_loosened p,
        memberNamesOf_loosened rest]

end

mutual

/-- Definite content is not loosened in fact. -/
theorem Particle.admits_loosened_iff : ∀ p : Particle, p.IsSingle → p.IsDefinite key →
    ∀ {w : Word}, (p.loosened key).Admits key w ↔ p.Admits key w
  | ⟨least, _, term⟩, ⟨hm, ht⟩, ⟨hlapse, hd⟩, w => by
      subst hm
      have hl : least.toNat ≤ 1 := Term.IsSingle.least_le ht
      have hterm := fun {w : Word} => Term.admits_loosened_iff term ht hd (w := w)
      rw [Particle.loosened, Particle.admits_single_iff hl]
      split
      · next hlapses =>
          rw [Particle.admits_single_iff (Nat.zero_le 1), hterm]
          constructor
          · rintro (⟨-, rfl⟩ | hw)
            · exact (hlapse hlapses).imp (fun hz => ⟨hz, rfl⟩) id
            · exact .inr hw
          · exact Or.imp_left fun h => ⟨rfl, h.2⟩
      · rw [Particle.admits_single_iff hl, hterm]

theorem Term.IsSingle.least_le {least : Count} : ∀ {term : Term}, term.IsSingle least →
    least.toNat ≤ 1
  | .element _, ht => ht
  | .group ⟨.choice, _⟩, ht => ht.1
  | .group ⟨.sequence, _⟩, ht => ht.1 ▸ Nat.le_refl 1
  | .group ⟨.all, _⟩, ht => ht.1 ▸ Nat.le_refl 1
  | .elementRef _, ht => ht.elim
  | .groupRef _, ht => ht.elim
  | .any, ht => ht.elim

theorem Term.admits_loosened_iff {least : Count} : ∀ term : Term, term.IsSingle least →
    term.IsDefinite key → ∀ {w : Word}, (term.loosened key).Admits key w ↔ term.Admits key w
  | .element _, _, _, _ => Iff.rfl
  | .group group, ht, hd, _ => ModelGroup.admits_loosened_iff group ht hd
  | .elementRef _, ht, _, _ => ht.elim
  | .groupRef _, ht, _, _ => ht.elim
  | .any, ht, _, _ => ht.elim

theorem ModelGroup.admits_loosened_iff {least : Count} : ∀ group : ModelGroup,
    group.IsSingle least → group.IsDefinite key →
      ∀ {w : Word}, (group.loosened key).Admits key w ↔ group.Admits key w
  | ⟨.choice, particles⟩, hg, hd, _ => admitsOne_loosened_iff particles hg.2 hd
  | ⟨.sequence, particles⟩, hg, hd, _ => admitsAll_loosened_iff particles hg.2 hd
  | ⟨.all, particles⟩, hg, hd, _ =>
      exists_congr fun _ => and_congr_left' (admitsAll_loosened_iff particles hg.2 hd)

theorem admitsAll_loosened_iff : ∀ particles : List Particle, AreSingle particles →
    AreDefinite key particles →
      ∀ {w : Word}, AdmitsAll key (loosenedAll key particles) w ↔ AdmitsAll key particles w
  | [], _, _, _ => Iff.rfl
  | p :: rest, hp, hd, _ =>
      exists₂_congr fun _ _ => and_congr (Particle.admits_loosened_iff p hp.1 hd.1)
        (and_congr_left' (admitsAll_loosened_iff rest hp.2 hd.2))

theorem admitsOne_loosened_iff : ∀ particles : List Particle, AreSingle particles →
    AreDefinite key particles →
      ∀ {w : Word}, AdmitsOne key (loosenedAll key particles) w ↔ AdmitsOne key particles w
  | [], _, _, _ => Iff.rfl
  | p :: rest, hp, hd, _ =>
      or_congr (Particle.admits_loosened_iff p hp.1 hd.1)
        (admitsOne_loosened_iff rest hp.2 hd.2)

end

end

end Crosswalk
