import Crosswalk.Proofs.Content.Collect
import Mathlib.Data.List.Pairwise

/-!
# Choices that conflict with their surroundings

If a name of a choice occurs beside it, there are words that violate the constraint of the choice:
those in which one branch is chosen and a name of another branch occurs outside. The words are built
along the content model. For that its bounds have to be such that there are words at all, and
a choice has to have several branches to choose from, each with members that no other has.
-/

namespace Crosswalk

open Shape Word

/-! ### Content models with words -/

/-- Each of the branches of a choice has members, and no two have a name in common. -/
def IsExclusive (key : Element → String) (limit : Limit) (particles : List Particle) : Prop :=
  2 ≤ particles.length ∧ (∀ p ∈ particles, p.memberNames key limit ≠ []) ∧
    particles.Pairwise fun p q => ∀ name ∈ p.memberNames key limit,
      name ∉ q.memberNames key limit

mutual

/-- The bounds do not contradict each other, there is no choice of nothing, and the branches of
a choice which is a constraint exclude each other. -/
def Particle.IsProper (key : Element → String) (outer : Limit) : Particle → Prop
  | ⟨least, most, term⟩ => most.Permits least.toNat ∧ term.IsProper key (most.times outer)

def Term.IsProper (key : Element → String) (limit : Limit) : Term → Prop
  | .group group => group.IsProper key limit
  | _ => True

def ModelGroup.IsProper (key : Element → String) (limit : Limit) : ModelGroup → Prop
  | ⟨.choice, particles⟩ => particles ≠ [] ∧ AreProper key limit particles ∧
    (limit = .zero ∨ limit.isRepeated = true ∨ IsExclusive key limit particles)
  | ⟨_, particles⟩ => AreProper key limit particles

def AreProper (key : Element → String) (limit : Limit) : List Particle → Prop
  | [] => True
  | p :: rest => p.IsProper key limit ∧ AreProper key limit rest

end

instance (l : Limit) (n : Nat) : Decidable (l.Permits n) :=
  match l with
  | .bounded _ => inferInstanceAs (Decidable (_ ∨ _))
  | .unbounded => isTrue True.intro

mutual

/-- Whether content is proper. -/
def Particle.decidableIsProper (key : Element → String) (outer : Limit) :
    (p : Particle) → Decidable (p.IsProper key outer)
  | ⟨_, _, term⟩ => @instDecidableAnd _ _ inferInstance (term.decidableIsProper key _)

def Term.decidableIsProper (key : Element → String) (limit : Limit) :
    (term : Term) → Decidable (term.IsProper key limit)
  | .group group => group.decidableIsProper key limit
  | .element _ => isTrue True.intro
  | .elementRef _ => isTrue True.intro
  | .groupRef _ => isTrue True.intro
  | .any => isTrue True.intro

def ModelGroup.decidableIsProper (key : Element → String) (limit : Limit) :
    (group : ModelGroup) → Decidable (group.IsProper key limit)
  | ⟨.choice, particles⟩ => @instDecidableAnd _ _
      (decidable_of_iff (particles.isEmpty = false) List.isEmpty_eq_false_iff)
      (@instDecidableAnd _ _ (decidableAreProper key limit particles)
        (inferInstanceAs (Decidable (_ ∨ _ ∨ _ ∧ _ ∧ _))))
  | ⟨.sequence, particles⟩ => decidableAreProper key limit particles
  | ⟨.all, particles⟩ => decidableAreProper key limit particles

def decidableAreProper (key : Element → String) (limit : Limit) :
    (particles : List Particle) → Decidable (AreProper key limit particles)
  | [] => isTrue True.intro
  | p :: rest => @instDecidableAnd _ _ (p.decidableIsProper key limit)
      (decidableAreProper key limit rest)

end

instance (key : Element → String) (outer : Limit) (p : Particle) :
    Decidable (p.IsProper key outer) := p.decidableIsProper key outer

section

variable {key : Element → String}

theorem arePlain_iff {particles : List Particle} :
    ArePlain particles ↔ ∀ p ∈ particles, p.IsPlain := by
  induction particles with
  | nil => simp [ArePlain]
  | cons p rest ih => simp [ArePlain, ih]

theorem areProper_iff {limit : Limit} {particles : List Particle} :
    AreProper key limit particles ↔ ∀ p ∈ particles, p.IsProper key limit := by
  induction particles with
  | nil => simp [AreProper]
  | cons p rest ih => simp [AreProper, ih]

theorem Particle.admits_replicate {least : Count} {most : Limit} {term : Term} {n : Nat}
    (hn : Bounds.Allows ⟨least, most⟩ n) {u : Word} (hu : term.Admits key u) :
    Particle.Admits key ⟨least, most, term⟩ (List.replicate n u).flatten :=
  ⟨List.replicate n u, by rwa [List.length_replicate],
    fun _ hx => List.eq_of_mem_replicate hx ▸ hu, rfl⟩

mutual

/-- There are words. -/
theorem Particle.exists_word {outer : Limit} : ∀ p : Particle, p.IsPlain → p.IsProper key outer →
    ∃ u, p.Admits key u
  | ⟨least, most, term⟩, hp, hx => by
      obtain ⟨u, hu⟩ := Term.exists_word term hp hx.2
      exact ⟨_, Particle.admits_replicate ⟨Nat.le_refl least.toNat, hx.1⟩ hu⟩

theorem Term.exists_word {limit : Limit} : ∀ term : Term, term.IsPlain →
    term.IsProper key limit → ∃ u, term.Admits key u
  | .element declaration, _, _ => ⟨[(key declaration, .null)], .null, rfl⟩
  | .group group, hp, hx => ModelGroup.exists_word group hp hx
  | .elementRef _, hp, _ => hp.elim
  | .groupRef _, hp, _ => hp.elim
  | .any, hp, _ => hp.elim

theorem ModelGroup.exists_word {limit : Limit} : ∀ group : ModelGroup, group.IsPlain →
    group.IsProper key limit → ∃ u, group.Admits key u
  | ⟨.choice, []⟩, _, hx => absurd rfl hx.1
  | ⟨.choice, p :: _⟩, hp, hx => by
      obtain ⟨u, hu⟩ := Particle.exists_word p hp.1 hx.2.1.1
      exact ⟨u, .inl hu⟩
  | ⟨.sequence, particles⟩, hp, hx => exists_word_all particles hp hx
  | ⟨.all, particles⟩, hp, hx => by
      obtain ⟨u, hu⟩ := exists_word_all particles hp hx
      exact ⟨u, u, hu, .refl u⟩

theorem exists_word_all {limit : Limit} : ∀ particles : List Particle, ArePlain particles →
    AreProper key limit particles → ∃ u, AdmitsAll key particles u
  | [], _, _ => ⟨[], rfl⟩
  | p :: rest, hp, hx => by
      obtain ⟨u, hu⟩ := Particle.exists_word p hp.1 hx.1
      obtain ⟨v, hv⟩ := exists_word_all rest hp.2 hx.2
      exact ⟨u ++ v, u, v, hu, hv, rfl⟩

end

mutual

/-- Every member occurs in some word. -/
theorem Particle.exists_occurrence {outer : Limit} : ∀ p : Particle, p.IsPlain →
    p.IsProper key outer → ∀ name ∈ p.memberNames key outer,
      ∃ u, p.Admits key u ∧ 0 < u.count name
  | ⟨least, most, term⟩, hp, hx, name, hn => by
      rw [Particle.memberNames] at hn
      split at hn
      · exact absurd hn List.not_mem_nil
      · next hz =>
          obtain ⟨u, hu, hpos⟩ := Term.exists_occurrence term hp hx.2 name hn
          have hmost : most ≠ .zero := fun hm => hz (hm ▸ Limit.zero_times outer)
          have hallows : Bounds.Allows ⟨least, most⟩ (max 1 least.toNat) := by
            refine ⟨Nat.le_max_right _ _, ?_⟩
            rcases Nat.le_total 1 least.toNat with hl | hl
            · rw [Nat.max_eq_right hl]
              exact hx.1
            · rw [Nat.max_eq_left hl]
              exact Limit.permits_one hmost
          refine ⟨_, Particle.admits_replicate hallows hu, ?_⟩
          obtain ⟨n, hn⟩ : ∃ n, max 1 least.toNat = n + 1 := ⟨max 1 least.toNat - 1, by omega⟩
          rw [hn, List.replicate_succ, List.flatten_cons, count_append]
          omega

theorem Term.exists_occurrence {limit : Limit} : ∀ term : Term, term.IsPlain →
    term.IsProper key limit → ∀ name ∈ term.memberNames key limit,
      ∃ u, term.Admits key u ∧ 0 < u.count name
  | .element declaration, _, _, name, hn => by
      refine ⟨[(key declaration, .null)], ⟨.null, rfl⟩, ?_⟩
      rw [count_singleton, if_pos (List.mem_singleton.1 hn).symm]
      exact Nat.one_pos
  | .group group, hp, hx, name, hn => ModelGroup.exists_occurrence group hp hx name hn
  | .elementRef _, hp, _, _, _ => hp.elim
  | .groupRef _, hp, _, _, _ => hp.elim
  | .any, hp, _, _, _ => hp.elim

theorem ModelGroup.exists_occurrence {limit : Limit} : ∀ group : ModelGroup, group.IsPlain →
    group.IsProper key limit → ∀ name ∈ group.memberNames key limit,
      ∃ u, group.Admits key u ∧ 0 < u.count name
  | ⟨.choice, particles⟩, hp, hx, name, hn => exists_occurrence_one particles hp hx.2.1 name hn
  | ⟨.sequence, particles⟩, hp, hx, name, hn => exists_occurrence_all particles hp hx name hn
  | ⟨.all, particles⟩, hp, hx, name, hn => by
      obtain ⟨u, hu, hpos⟩ := exists_occurrence_all particles hp hx name hn
      exact ⟨u, ⟨u, hu, .refl u⟩, hpos⟩

theorem exists_occurrence_all {limit : Limit} : ∀ particles : List Particle, ArePlain particles →
    AreProper key limit particles → ∀ name ∈ memberNamesOf key limit particles,
      ∃ u, AdmitsAll key particles u ∧ 0 < u.count name
  | [], _, _, _, hn => absurd hn List.not_mem_nil
  | p :: rest, hp, hx, name, hn => by
      rcases List.mem_append.1 hn with hn | hn
      · obtain ⟨u, hu, hpos⟩ := Particle.exists_occurrence p hp.1 hx.1 name hn
        obtain ⟨v, hv⟩ := exists_word_all rest hp.2 hx.2
        exact ⟨u ++ v, ⟨u, v, hu, hv, rfl⟩, by rw [count_append]; omega⟩
      · obtain ⟨u, hu⟩ := Particle.exists_word p hp.1 hx.1
        obtain ⟨v, hv, hpos⟩ := exists_occurrence_all rest hp.2 hx.2 name hn
        exact ⟨u ++ v, ⟨u, v, hu, hv, rfl⟩, by rw [count_append]; omega⟩

theorem exists_occurrence_one {limit : Limit} : ∀ particles : List Particle, ArePlain particles →
    AreProper key limit particles → ∀ name ∈ memberNamesOf key limit particles,
      ∃ u, AdmitsOne key particles u ∧ 0 < u.count name
  | [], _, _, _, hn => absurd hn List.not_mem_nil
  | p :: rest, hp, hx, name, hn => by
      rcases List.mem_append.1 hn with hn | hn
      · obtain ⟨u, hu, hpos⟩ := Particle.exists_occurrence p hp.1 hx.1 name hn
        exact ⟨u, .inl hu, hpos⟩
      · obtain ⟨u, hu, hpos⟩ := exists_occurrence_one rest hp.2 hx.2 name hn
        exact ⟨u, .inr hu, hpos⟩

end

end

/-! ### Objects that are refused -/

namespace Shape

/-- Every object with the names of a word violates some constraint of the shape. -/
def Refuses (s : Shape) (u : Word) : Prop :=
  ∀ entries : Table String Json, (∀ name, 0 < u.count name → Table.contains entries name = true) →
    ∃ choice ∈ s.choices, Unmet entries choice

theorem Refuses.mono {s r : Shape} {u v : Word} (h : s.Refuses u)
    (hs : ∀ choice ∈ s.choices, choice ∈ r.choices)
    (hu : ∀ name, 0 < u.count name → 0 < v.count name) : r.Refuses v := by
  intro entries he
  obtain ⟨choice, hc, hun⟩ := h entries fun name hn => he name (hu name hn)
  exact ⟨choice, hs choice hc, hun⟩

/-- What the constraints of content, which has the words `A`, are good for: with another occurrence
of a name of one of its choices, and if it is not separate, a word of it is refused. -/
structure Guards (members chosen : List String) (A : Word → Prop) (separate : Prop)
    (s r : Shape) : Prop extends Enlarges members s r where
  extra : ∀ name ∈ chosen, ∃ u, A u ∧ r.Refuses ((name, .null) :: u)
  clash : ¬ separate → ∃ u, A u ∧ (∃ name ∈ members, 0 < u.count name) ∧ r.Refuses u

/-- Where there are no constraints, there is nothing that they could be good for. -/
theorem Enlarges.guards {members : List String} {s r : Shape} (h : Enlarges members s r)
    (A : Word → Prop) {separate : Prop} (hs : separate) : Guards members [] A separate s r :=
  ⟨h, fun _ hn => absurd hn List.not_mem_nil, fun hn => absurd hs hn⟩

/-- Other words of the same names. -/
theorem Guards.imp {members chosen : List String} {A B : Word → Prop} {separate separate' : Prop}
    {s r : Shape} (h : Guards members chosen A separate s r) (hs : separate → separate')
    (hextra : ∀ name ∈ chosen, ∀ u, A u → B u) (hclash : ¬ separate → ∀ u, A u → B u) :
    Guards members chosen B separate' s r where
  toEnlarges := h.toEnlarges
  extra := fun name hn => (h.extra name hn).imp fun u hu => ⟨hextra name hn u hu.1, hu.2⟩
  clash := fun hc => (h.clash fun hsep => hc (hs hsep)).imp fun u hu =>
    ⟨hclash (fun hsep => hc (hs hsep)) u hu.1, hu.2⟩

theorem count_append_pos_left {u v : Word} {name : String} (h : 0 < u.count name) :
    0 < (u ++ v).count name := by
  rw [count_append]
  omega

theorem count_append_pos_right {u v : Word} {name : String} (h : 0 < v.count name) :
    0 < (u ++ v).count name := by
  rw [count_append]
  omega

theorem count_cons_pos {name : String} {u : Word} {value : Json} {other : String}
    (h : 0 < Word.count ((name, value) :: u) other) : name = other ∨ 0 < u.count other := by
  have hsplit : Word.count ((name, value) :: u) other =
      Word.count [(name, value)] other + u.count other := count_append [(name, value)] u other
  rw [hsplit, count_singleton] at h
  split at h
  · next heq => exact .inl heq
  · exact .inr (by omega)

/-- A word is refused if all names of a refused word occur in it, the first one as well. -/
theorem Refuses.of_cons {s r : Shape} {name : String} {u w : Word}
    (h : s.Refuses ((name, .null) :: u)) (hs : ∀ choice ∈ s.choices, choice ∈ r.choices)
    (hn : 0 < w.count name) (hu : ∀ other, 0 < u.count other → 0 < w.count other) :
    r.Refuses w := by
  refine h.mono hs fun other ho => ?_
  rcases count_cons_pos ho with rfl | ho
  · exact hn
  · exact hu other ho

section

variable {m m' c c' : List String} {A A' : Word → Prop} {p p' : Prop} {s t r : Shape}

/-- With another occurrence of a name of one of its choices, content after other content is
refused. -/
theorem Guards.extra_trans (h : Guards m c A p s t) (h' : Guards m' c' A' p' t r)
    (hw : ∃ u, A u) (hw' : ∃ u, A' u) : ∀ name ∈ c ++ c',
      ∃ w, (∃ u v, A u ∧ A' v ∧ w = u ++ v) ∧ r.Refuses ((name, .null) :: w) := by
  intro name hn
  have first : ∀ w : Word, 0 < Word.count ((name, .null) :: w) name := fun w =>
    count_append_pos_left (u := [(name, .null)]) (by simp [count_singleton])
  rcases List.mem_append.1 hn with hn | hn
  · obtain ⟨u, hu, hr⟩ := h.extra name hn
    obtain ⟨v, hv⟩ := hw'
    refine ⟨u ++ v, ⟨u, v, hu, hv, rfl⟩, hr.of_cons h'.kept (first _) fun other ho => ?_⟩
    exact count_append_pos_left (u := (name, .null) :: u)
      (count_append_pos_right (u := [(name, .null)]) ho)
  · obtain ⟨u, hu⟩ := hw
    obtain ⟨v, hv, hr⟩ := h'.extra name hn
    refine ⟨u ++ v, ⟨u, v, hu, hv, rfl⟩, hr.of_cons (fun _ => id) (first _) fun other ho => ?_⟩
    exact count_append_pos_right (u := (name, .null) :: u) ho

/-- If one of the contents is not separate, or a name of a choice in one is a name of the other, a
word of both is refused. -/
theorem Guards.clash_trans (h : Guards m c A p s t) (h' : Guards m' c' A' p' t r)
    (hw : ∃ u, A u) (hw' : ∃ u, A' u) (ho : ∀ name ∈ m, ∃ u, A u ∧ 0 < u.count name)
    (ho' : ∀ name ∈ m', ∃ u, A' u ∧ 0 < u.count name)
    (hsep : ¬ (p ∧ p' ∧ (∀ name ∈ c, name ∉ m') ∧ ∀ name ∈ m, name ∉ c')) :
    ∃ w, (∃ u v, A u ∧ A' v ∧ w = u ++ v) ∧ (∃ name ∈ m ++ m', 0 < w.count name) ∧
      r.Refuses w := by
  simp only [not_and_or] at hsep
  rcases hsep with hp | hp' | hc | hm
  · obtain ⟨u, hu, ⟨name, hm, hpos⟩, hr⟩ := h.clash hp
    obtain ⟨v, hv⟩ := hw'
    exact ⟨u ++ v, ⟨u, v, hu, hv, rfl⟩,
      ⟨name, List.mem_append_left _ hm, count_append_pos_left hpos⟩,
      hr.mono h'.kept fun _ => count_append_pos_left⟩
  · obtain ⟨u, hu⟩ := hw
    obtain ⟨v, hv, ⟨name, hm, hpos⟩, hr⟩ := h'.clash hp'
    exact ⟨u ++ v, ⟨u, v, hu, hv, rfl⟩,
      ⟨name, List.mem_append_right _ hm, count_append_pos_right hpos⟩,
      hr.mono (fun _ => id) fun _ => count_append_pos_right⟩
  · -- A name of a choice in the first content is one of the second.
    push Not at hc
    obtain ⟨name, hname, hm⟩ := hc
    obtain ⟨u, hu, hr⟩ := h.extra name hname
    obtain ⟨v, hv, hpos⟩ := ho' name hm
    exact ⟨u ++ v, ⟨u, v, hu, hv, rfl⟩,
      ⟨name, List.mem_append_right _ hm, count_append_pos_right hpos⟩,
      hr.of_cons h'.kept (count_append_pos_right hpos) fun _ => count_append_pos_left⟩
  · -- A name of the first content is one of a choice in the second.
    push Not at hm
    obtain ⟨name, hm, hname⟩ := hm
    obtain ⟨u, hu, hpos⟩ := ho name hm
    obtain ⟨v, hv, hr⟩ := h'.extra name hname
    exact ⟨u ++ v, ⟨u, v, hu, hv, rfl⟩,
      ⟨name, List.mem_append_left _ hm, count_append_pos_left hpos⟩,
      hr.of_cons (fun _ => id) (count_append_pos_left hpos) fun _ => count_append_pos_right⟩

/-- Content after other content. -/
theorem Guards.trans (h : Guards m c A p s t) (h' : Guards m' c' A' p' t r) (hw : ∃ u, A u)
    (hw' : ∃ u, A' u) (ho : ∀ name ∈ m, ∃ u, A u ∧ 0 < u.count name)
    (ho' : ∀ name ∈ m', ∃ u, A' u ∧ 0 < u.count name) :
    Guards (m ++ m') (c ++ c') (fun w => ∃ u v, A u ∧ A' v ∧ w = u ++ v)
      (p ∧ p' ∧ (∀ name ∈ c, name ∉ m') ∧ ∀ name ∈ m, name ∉ c') s r where
  toEnlarges := h.toEnlarges.trans h'.toEnlarges
  extra := h.extra_trans h' hw hw'
  clash := h.clash_trans h' hw hw' ho ho'

end

/-! ### Choices -/

section

variable {key : Element → String} {limit : Limit} {particles : List Particle}
  {branches : List Shape}

/-- The shape of a branch, with what its constraints are good for. -/
def IsGuard (key : Element → String) (limit : Limit) (p : Particle) (branch : Shape) : Prop :=
  Guards (p.memberNames key limit) (p.choiceNames key limit) (p.Admits key)
    (p.IsSeparate key limit) {} branch

theorem IsGuard.names {p : Particle} {branch : Shape} (h : IsGuard key limit p branch)
    (name : String) : name ∈ branch.names ↔ name ∈ p.memberNames key limit := by
  rw [(Guards.toEnlarges h).names]
  exact ⟨fun hn => hn.resolve_left List.not_mem_nil, .inr⟩

theorem overlap_of_isExclusive (hb : List.Forall₂ (IsGuard key limit) particles branches)
    (hx : IsExclusive key limit particles) : overlap branches = false := by
  rw [overlap_eq_false]
  have hpair := hx.2.2
  clear hx
  induction hb with
  | nil => exact .nil
  | cons hfirst hrest ih =>
      rw [List.pairwise_cons] at hpair
      refine .cons (fun other hother name hn => ?_) (ih hpair.2)
      obtain ⟨q, hq, hguard⟩ := Conversion.exists_entry hrest.flip hother
      rw [IsGuard.names hguard]
      exact hpair.1 q hq name ((hfirst.names name).1 hn)

/-- A member of two branches that exclude each other has one branch. -/
theorem eq_of_mem_names (ho : overlap branches = false) {b c : Shape} (hb : b ∈ branches)
    (hc : c ∈ branches) {name : String} (hnb : name ∈ b.names) (hnc : name ∈ c.names) : b = c := by
  have hsymm : Std.Symm fun b c : Shape => name ∈ b.names → name ∈ c.names → b = c :=
    ⟨fun _ _ h hc hb => (h hb hc).symm⟩
  have hpair : branches.Pairwise fun b c => name ∈ b.names → name ∈ c.names → b = c :=
    (overlap_eq_false.1 ho).imp fun h hb hc => absurd hc (h name hb)
  exact hpair.forall_of_forall (fun _ _ _ _ => rfl) hb hc hnb hnc

theorem mem_flatMap_names {branch : Shape} (hb : branch ∈ branches) {name : String}
    (hn : name ∈ branch.names) : name ∈ branches.flatMap Shape.names :=
  List.mem_flatMap.2 ⟨branch, hb, hn⟩

/-- Some branch does not have the name, for two of them have no name in common. -/
theorem exists_not_mem_memberNames (hx : IsExclusive key limit particles) (name : String) :
    ∃ p ∈ particles, name ∉ p.memberNames key limit := by
  match particles, hx.1, hx.2.2 with
  | p :: q :: _, _, hpair =>
      by_cases hn : name ∈ p.memberNames key limit
      · exact ⟨q, by simp, (List.pairwise_cons.1 hpair).1 q (by simp) name hn⟩
      · exact ⟨p, by simp, hn⟩

/-- A word is refused if every object for it has a name of some branch, and violates every branch,
by a name of another one or by a constraint of its own. -/
theorem refuses_choice (ho : overlap branches = false) {t : Shape} {obliged : Bool} {u : Word}
    (hu : ∀ entries : Table String Json,
      (∀ name, 0 < u.count name → Table.contains entries name = true) →
      (∃ branch ∈ branches, Present entries branch.names) ∧ ∀ branch ∈ branches,
        (∃ name ∈ branches.flatMap Shape.names, name ∉ branch.names ∧
          Table.contains entries name = true) ∨
        ∃ inner ∈ branch.choices, Unmet entries inner) :
    Refuses { t with choices := t.choices ++ (choice? branches obliged).toList } u := by
  intro entries he
  obtain ⟨⟨branch, hbranch, name, hn, hc⟩, hexcluded⟩ := hu entries he
  obtain ⟨choice, hchoice⟩ := Option.isSome_iff_exists.1 (choice?_isSome obliged
    (mem_inhabited.2 ⟨hbranch, List.ne_nil_of_mem hn⟩))
  refine ⟨choice, List.mem_append_right _ (Option.mem_toList.2 hchoice), ?_⟩
  exact unmet_choice hchoice ho ⟨name, mem_flatMap_names hbranch hn, hc⟩ hexcluded

section

variable (hb : List.Forall₂ (IsGuard key limit) particles branches)
  (hx : IsExclusive key limit particles) {t : Shape} (obliged : Bool)
include hb hx

/-- With a name of any branch, a word of a branch that does not have it is refused. -/
theorem extra_choice
    (hw : ∀ p ∈ particles, ∀ name ∈ p.memberNames key limit,
      ∃ u, p.Admits key u ∧ 0 < u.count name) :
    ∀ name ∈ memberNamesOf key limit particles, ∃ u, AdmitsOne key particles u ∧
      Refuses { t with choices := t.choices ++ (choice? branches obliged).toList }
        ((name, .null) :: u) := by
  intro name hname
  have ho := overlap_of_isExclusive hb hx
  obtain ⟨p, hp, hnp⟩ := exists_not_mem_memberNames hx name
  obtain ⟨other, hother⟩ := List.exists_mem_of_ne_nil _ (hx.2.1 p hp)
  obtain ⟨u, hu, hpos⟩ := hw p hp other hother
  obtain ⟨branch, hbranch, hguard⟩ := Conversion.exists_entry hb hp
  have hobranch : other ∈ branch.names := (hguard.names other).2 hother
  have hnbranch : name ∉ branch.names := fun hn => hnp ((hguard.names name).1 hn)
  refine ⟨u, admitsOne_iff.2 ⟨p, hp, hu⟩, refuses_choice ho fun entries he => ?_⟩
  have hcname : Table.contains entries name = true :=
    he name (count_append_pos_left (u := [(name, .null)]) (by simp [count_singleton]))
  have hcother : Table.contains entries other = true :=
    he other (count_append_pos_right (u := [(name, .null)]) hpos)
  refine ⟨⟨branch, hbranch, other, hobranch, hcother⟩, fun b hbmem => .inl ?_⟩
  by_cases hn : name ∈ b.names
  · refine ⟨other, mem_flatMap_names hbranch hobranch, fun hob => hnbranch ?_, hcother⟩
    exact eq_of_mem_names ho hbmem hbranch hob hobranch ▸ hn
  · exact ⟨name, (mem_memberNamesOf_iff (hb.imp fun _ _ h => h.names) name).1 hname, hn, hcname⟩

/-- If a branch is not separate, a word of it is refused. -/
theorem clash_choice (hsep : ¬ AreSeparate key limit particles) :
    ∃ u, AdmitsOne key particles u ∧
      (∃ name ∈ memberNamesOf key limit particles, 0 < u.count name) ∧
      Refuses { t with choices := t.choices ++ (choice? branches obliged).toList } u := by
  have ho := overlap_of_isExclusive hb hx
  obtain ⟨p, hp, hnot⟩ : ∃ p ∈ particles, ¬ p.IsSeparate key limit := by
    rw [areSeparate_iff] at hsep
    push Not at hsep
    exact hsep
  obtain ⟨branch, hbranch, hguard⟩ := Conversion.exists_entry hb hp
  obtain ⟨u, hu, ⟨name, hname, hpos⟩, hr⟩ := hguard.clash hnot
  have hnbranch : name ∈ branch.names := (hguard.names name).2 hname
  refine ⟨u, admitsOne_iff.2 ⟨p, hp, hu⟩, ⟨name, mem_memberNamesOf.2 ⟨p, hp, hname⟩, hpos⟩,
    refuses_choice ho fun entries he => ⟨⟨branch, hbranch, name, hnbranch, he name hpos⟩,
      fun b hbmem => ?_⟩⟩
  by_cases hn : name ∈ b.names
  · rw [eq_of_mem_names ho hbmem hbranch hn hnbranch]
    exact .inr (hr entries he)
  · exact .inl ⟨name, mem_flatMap_names hbranch hnbranch, hn, he name hpos⟩

/-- A choice whose branches exclude each other. -/
theorem guards_choice
    (hw : ∀ p ∈ particles, ∀ name ∈ p.memberNames key limit, ∃ u, p.Admits key u ∧ 0 < u.count name)
    {s : Shape} (hj : Joins s.names (branches.flatMap Shape.slots) s t) :
    Guards (memberNamesOf key limit particles) (memberNamesOf key limit particles)
      (AdmitsOne key particles) (AreSeparate key limit particles) s
      { t with choices := t.choices ++ (choice? branches obliged).toList } where
  toEnlarges := enlarges_choice (mem_memberNamesOf_iff (hb.imp fun _ _ h => h.names)) hj obliged
  extra := extra_choice hb hx obliged hw
  clash := clash_choice hb hx obliged

end

end

end Shape

namespace Conversion

open Shape

variable {context : Context} {expand : Expansions} {key : Element → String}

mutual

/-- Of proper content that is not separate some word is refused. -/
theorem yields_collectParticle_guards {site : Site} (hk : elementKey context site.scope = key)
    (outer : Bounds) (nested : Bool) {shape : Shape} (hs : shape.IsElemental) :
    ∀ p : Particle, p.IsPlain → p.IsProper key outer.most →
      Yields (collectParticle context expand site outer nested shape p)
        (Guards (p.memberNames key outer.most) (p.choiceNames key outer.most) (p.Admits key)
          (p.IsSeparate key outer.most) shape)
  | ⟨least, most, term⟩, hp, hx => by
      have hmost : (Bounds.times ⟨least, most⟩ outer).most = most.times outer.most := rfl
      rw [Particle.memberNames, Particle.choiceNames, collectParticle, hmost]
      by_cases hz : most.times outer.most = .zero
      · rw [if_pos hz, if_pos hz, if_pos hz]
        exact Yields.pure ((Enlarges.refl hs).guards _ (.inl hz))
      · rw [if_neg hz, if_neg hz, if_neg hz]
        refine (yields_collectTerm_guards hk (.times ⟨least, most⟩ outer) hz nested hs term hp
          hx.2).mono fun r hr => ?_
        -- What is not repeated within something else occurs once itself.
        have lift : (most.times outer.most).isRepeated = false → ∀ u, term.Admits key u →
            Particle.Admits key ⟨least, most, term⟩ u := by
          intro hrep u hu
          have hmost' : most.isRepeated = false := by
            by_contra hrep'
            rw [Limit.times_comm] at hz hrep
            rcases Limit.isRepeated_times (Bool.eq_true_of_not_eq_false hrep') with h | h
            · exact hz h
            · exact Bool.false_ne_true (hrep.symm.trans h)
          have hne : most ≠ .zero := fun hm => hz (hm ▸ Limit.zero_times _)
          exact ⟨[u], ⟨Limit.le_one_of_permits hmost' hx.1, Limit.permits_one hne⟩, by simpa,
            by simp⟩
        refine hr.imp .inr (fun name hn => lift ?_) fun hsep => lift ?_
        · by_contra hrep
          have hnil : term.choiceNames key (most.times outer.most) = [] :=
            Term.choiceNames_of_isRepeated (Bool.eq_true_of_not_eq_false hrep) term
          exact absurd (hnil ▸ hn) List.not_mem_nil
        · by_contra hrep
          exact hsep (Term.isSeparate_of_isRepeated (Bool.eq_true_of_not_eq_false hrep) term)

theorem yields_collectTerm_guards {site : Site} (hk : elementKey context site.scope = key)
    (bounds : Bounds) (hz : bounds.most ≠ .zero) (nested : Bool) {shape : Shape}
    (hs : shape.IsElemental) :
    ∀ term : Term, term.IsPlain → term.IsProper key bounds.most →
      Yields (collectTerm context expand site bounds nested shape term)
        (Guards (term.memberNames key bounds.most) (term.choiceNames key bounds.most)
          (term.Admits key) (term.IsSeparate key bounds.most) shape)
  | .element declaration, _, _ => by
      unfold collectTerm
      refine Yields.bind_any fun item => (yields_addElement_eq context site _ _ shape).mono ?_
      rintro _ rfl
      subst hk
      exact (enlarges_element hs _ item bounds).guards _ True.intro
  | .group group, hp, hx => yields_collectGroup_guards hk bounds hz nested hs group hp hx
  | .elementRef _, hp, _ => hp.elim
  | .groupRef _, hp, _ => hp.elim
  | .any, hp, _ => hp.elim

theorem yields_collectGroup_guards {site : Site} (hk : elementKey context site.scope = key)
    (bounds : Bounds) (hz : bounds.most ≠ .zero) (nested : Bool) {shape : Shape}
    (hs : shape.IsElemental) :
    ∀ group : ModelGroup, group.IsPlain → group.IsProper key bounds.most →
      Yields (collectGroup context expand site bounds nested shape group)
        (Guards (group.memberNames key bounds.most) (group.choiceNames key bounds.most)
          (group.Admits key) (group.IsSeparate key bounds.most) shape)
  | ⟨.choice, particles⟩, hp, hx => by
      obtain ⟨-, hproper, hexclusive⟩ := hx
      unfold collectGroup
      rw [ModelGroup.choiceNames]
      by_cases hr : bounds.most.isRepeated = true
      · rw [if_pos hr, if_pos hr]
        refine Yields.bind_any fun _ => ?_
        refine (yields_collectParticles_guards hk bounds.orNone nested hs particles hp
          hproper).mono fun r h => h.toEnlarges.guards _ (.inl hr)
      · rw [if_neg hr, if_neg hr]
        have hx := (hexclusive.resolve_left hz).resolve_left hr
        have hw : ∀ p ∈ particles, ∀ name ∈ p.memberNames key bounds.most,
            ∃ u, p.Admits key u ∧ 0 < u.count name := fun p hmem =>
          Particle.exists_occurrence p (arePlain_iff.1 hp p hmem) (areProper_iff.1 hproper p hmem)
        refine (yields_collectBranches_guards hk bounds particles hp hproper).bind
          fun branches hb => ?_
        have he : ∀ branch ∈ branches, branch.IsElemental := by
          intro branch hmem
          obtain ⟨p, -, hguard⟩ := exists_entry hb.flip hmem
          exact (Guards.toEnlarges hguard).elemental
        have joined := (yields_joinBranches_joins context site shape.names hs branches
          he).bind fun t hj => Yields.pure (guards_choice hb hx bounds.isRequired hw hj)
        unfold addChoice
        exact (Yields.ite (Yields.bind_any fun _ => joined) joined).mono fun _ h =>
          h.imp .inr (fun _ _ _ => id) fun _ _ => id
  | ⟨.sequence, particles⟩, hp, hx =>
      yields_collectParticles_guards hk bounds nested hs particles hp hx
  | ⟨.all, particles⟩, hp, hx =>
      (yields_collectParticles_guards hk bounds nested hs particles hp hx).mono fun _ h =>
        h.imp id (fun _ _ u hu => ⟨u, hu, .refl u⟩) fun _ u hu => ⟨u, hu, .refl u⟩

theorem yields_collectParticles_guards {site : Site} (hk : elementKey context site.scope = key)
    (outer : Bounds) (nested : Bool) {shape : Shape} (hs : shape.IsElemental) :
    ∀ particles : List Particle, ArePlain particles → AreProper key outer.most particles →
      Yields (collectParticles context expand site outer nested shape particles)
        (Guards (memberNamesOf key outer.most particles) (choiceNamesOf key outer.most particles)
          (AdmitsAll key particles) (AreApart key outer.most particles) shape)
  | [], _, _ => Yields.pure ((Enlarges.refl hs).guards _ True.intro)
  | p :: rest, hp, hx => by
      unfold collectParticles
      refine (yields_collectParticle_guards hk outer nested hs p hp.1 hx.1).bind fun t ht => ?_
      refine (yields_collectParticles_guards hk outer nested ht.elemental rest hp.2 hx.2).mono
        fun r hr => ?_
      exact ht.trans hr (Particle.exists_word p hp.1 hx.1) (exists_word_all rest hp.2 hx.2)
        (Particle.exists_occurrence p hp.1 hx.1) (exists_occurrence_all rest hp.2 hx.2)

theorem yields_collectBranches_guards {site : Site} (hk : elementKey context site.scope = key)
    (bounds : Bounds) :
    ∀ particles : List Particle, ArePlain particles → AreProper key bounds.most particles →
      Yields (collectBranches context expand site { bounds with least := .one } particles)
        (List.Forall₂ (IsGuard key bounds.most) particles)
  | [], _, _ => Yields.pure .nil
  | p :: rest, hp, hx => by
      unfold collectBranches
      refine (yields_collectParticle_guards hk { bounds with least := .one } true
        isElemental_empty p hp.1 hx.1).bind fun branch hbranch => ?_
      exact (yields_collectBranches_guards hk bounds rest hp.2 hx.2).bind
        fun branches hbranches => Yields.pure (.cons hbranch hbranches)

end

end Conversion

end Crosswalk
