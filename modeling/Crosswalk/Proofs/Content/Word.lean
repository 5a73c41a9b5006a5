import Crosswalk.Json.Basic
import Crosswalk.Proofs.Occurs
import Crosswalk.Schema.Component
import Mathlib.Algebra.GroupWithZero.Nat
import Mathlib.Algebra.Order.BigOperators.Group.List
import Mathlib.Algebra.Order.Group.Nat
import Mathlib.Data.List.Perm.Basic

/-!
# Words of children

A word is a sequence of children, each with the name of its property and a value. A content model
admits words: a particle admits as many words of its term as its bounds allow, one after the other,
a sequence admits a word of each of its particles in turn, an all-group the same in any order, and a
choice a word of one of its particles. For an object only matters how often each name occurs.
-/

namespace Crosswalk

/-- The children of an element, each with the name of its property. -/
abbrev Word := List (String × Json)

namespace Word

/-- The values of the children with a name. -/
def occurrences (w : Word) (name : String) : List Json :=
  (w.filter fun child => child.1 == name).map (·.2)

/-- How many children have a name. -/
def count (w : Word) (name : String) : Nat := (occurrences w name).length

@[simp] theorem count_nil (name : String) : count [] name = 0 := rfl

theorem count_append (u v : Word) (name : String) :
    count (u ++ v) name = count u name + count v name := by
  simp [count, occurrences]

theorem count_singleton (name : String) (value : Json) (other : String) :
    count [(name, value)] other = if name = other then 1 else 0 := by
  by_cases h : name = other
  · simp [count, occurrences, h]
  · simp [count, occurrences, h]

theorem count_perm {u v : Word} (h : u.Perm v) (name : String) : count u name = count v name := by
  simpa [count, occurrences] using (h.filter fun child => child.1 == name).length_eq

theorem count_le_length (w : Word) (name : String) : count w name ≤ w.length := by
  simpa [count, occurrences] using List.length_filter_le (fun child => child.1 == name) w

end Word

/-! ### Bounds -/

/-- The limit permits so many occurrences. The greatest count stands for any number, for a sum or
product may have ended there. -/
def Limit.Permits (l : Limit) (n : Nat) : Prop :=
  match l with
  | .bounded c => n ≤ c.toNat ∨ c.toNat = Count.greatest
  | .unbounded => True

/-- The bounds allow so many occurrences. -/
structure Bounds.Allows (b : Bounds) (n : Nat) : Prop where
  least : b.least.toNat ≤ n
  most : b.most.Permits n

theorem Limit.permits_zero (l : Limit) : l.Permits 0 := by
  cases l with
  | bounded c => exact .inl (Nat.zero_le _)
  | unbounded => exact True.intro

theorem Limit.Permits.mono {l : Limit} {m n : Nat} (h : l.Permits n) (hmn : m ≤ n) :
    l.Permits m := by
  cases l with
  | bounded c => exact h.imp_left hmn.trans
  | unbounded => exact True.intro

theorem Limit.eq_zero_of_permits {n : Nat} (h : zero.Permits n) : n = 0 := by
  rcases h with h | h
  · exact Nat.le_zero.1 h
  · exact absurd h (by decide)

theorem Limit.permits_one {l : Limit} (h : l ≠ zero) : l.Permits 1 := by
  cases l with
  | unbounded => exact True.intro
  | bounded c =>
      have hc : c.toNat ≠ 0 := fun hc => h (congrArg bounded (Count.ext_toNat hc))
      exact .inl (Nat.pos_of_ne_zero hc)

theorem Limit.le_one_of_permits {l : Limit} (h : l.isRepeated = false) {n : Nat}
    (hn : l.Permits n) : n ≤ 1 := by
  cases l with
  | unbounded => exact absurd h.symm Bool.false_ne_true
  | bounded c =>
      have hc : ¬ 1 < c.toNat := of_decide_eq_false h
      have hg : 1 < Count.greatest := by decide
      simp only [Permits] at hn
      omega

theorem Limit.permits_plus {a b : Limit} {m n : Nat} (ha : a.Permits m) (hb : b.Permits n) :
    (a.plus b).Permits (m + n) := by
  cases a with
  | unbounded => exact True.intro
  | bounded c =>
      cases b with
      | unbounded => exact True.intro
      | bounded d =>
          simp only [Permits, Limit.plus, Count.toNat_plus] at *
          omega

theorem Limit.permits_of_le {a b : Limit} (h : a ≤ b) {n : Nat} (ha : a.Permits n) :
    b.Permits n := by
  cases b with
  | unbounded => exact True.intro
  | bounded d =>
      cases a with
      | unbounded => exact absurd h (not_unbounded_le d)
      | bounded c =>
          have hle := bounded_le_bounded.1 h
          have hd : d.toNat ≤ Count.greatest := d.le_greatest
          simp only [Permits] at *
          omega

theorem Limit.permits_times_bounded {c d : Count} {ns : List Nat}
    (ha : ∀ n ∈ ns, (bounded c).Permits n) (hb : (bounded d).Permits ns.length) :
    (bounded (c.times d)).Permits ns.sum := by
  have hpos : 0 < Count.greatest := by decide
  rw [Permits, Count.toNat_times]
  by_cases hbig : Count.greatest ≤ c.toNat * d.toNat
  · exact .inr (Nat.min_eq_right hbig)
  · refine .inl (Nat.le_min.2 ?_)
    suffices hsum : ns.sum ≤ c.toNat * d.toNat from ⟨hsum, by omega⟩
    by_cases hd : d.toNat = 0
    · have hnil : ns = [] := by
        rcases hb with hb | hb
        · exact List.length_eq_zero_iff.1 (by omega)
        · omega
      simp [hnil]
    · have hc : c.toNat ≠ Count.greatest := by
        intro hc
        exact hbig (hc ▸ Nat.le_mul_of_pos_right _ (Nat.pos_of_ne_zero hd))
      have hle : ∀ n ∈ ns, n ≤ c.toNat := fun n hn => (ha n hn).resolve_right hc
      have hsum : ns.sum ≤ ns.length * c.toNat := by
        simpa using List.sum_le_card_nsmul ns c.toNat hle
      rcases hb with hb | hb
      · exact hsum.trans ((Nat.mul_le_mul_right _ hb).trans (Nat.mul_comm _ _).le)
      · have hzero : c.toNat = 0 := by
          by_contra hne
          exact hbig (hb ▸ Nat.le_mul_of_pos_left _ (Nat.pos_of_ne_zero hne))
        simpa [hzero] using hsum

/-- Occurrences of something within something else that has a limit itself. -/
theorem Limit.permits_times {a b : Limit} {ns : List Nat} (ha : ∀ n ∈ ns, a.Permits n)
    (hb : b.Permits ns.length) : (a.times b).Permits ns.sum := by
  have hpos : Count.greatest ≠ 0 := by decide
  cases a with
  | unbounded =>
      cases b with
      | unbounded => exact True.intro
      | bounded d =>
          rw [Limit.times]
          split
          · next hd =>
              have hnil : ns = [] := by
                rcases hb with hb | hb
                · exact List.length_eq_zero_iff.1 (by omega)
                · omega
              exact hnil ▸ permits_zero _
          · exact True.intro
  | bounded c =>
      cases b with
      | bounded d => exact permits_times_bounded ha hb
      | unbounded =>
          rw [Limit.times]
          split
          · next hc =>
              have hle : ∀ n ∈ ns, n = 0 := by
                intro n hn
                rcases ha n hn with h | h <;> omega
              exact List.sum_eq_zero hle ▸ permits_zero _
          · exact True.intro

theorem Limit.one_ne_zero : Limit.one ≠ .zero := by decide

theorem Limit.times_ne_zero {a b : Limit} (ha : a ≠ zero) (hb : b ≠ zero) : a.times b ≠ zero := by
  intro h
  have hone : (a.times b).Permits ([1] : List Nat).sum :=
    permits_times (List.forall_mem_singleton.2 (permits_one ha)) (permits_one hb)
  exact Nat.one_ne_zero (eq_zero_of_permits (h ▸ hone))

theorem Bounds.allows_plus {a b : Bounds} {m n : Nat} (ha : a.Allows m) (hb : b.Allows n) :
    (a.plus b).Allows (m + n) := by
  refine ⟨?_, Limit.permits_plus ha.most hb.most⟩
  have h1 := ha.least
  have h2 := hb.least
  simp only [Bounds.plus, Count.toNat_plus]
  omega

/-- Occurrences of something within something else that occurs itself. -/
theorem Bounds.allows_times {a b : Bounds} {ns : List Nat} (ha : ∀ n ∈ ns, a.Allows n)
    (hb : b.Allows ns.length) : (a.times b).Allows ns.sum := by
  refine ⟨?_, Limit.permits_times (fun n hn => (ha n hn).most) hb.most⟩
  have hsum : ns.length * a.least.toNat ≤ ns.sum := by
    simpa using List.card_nsmul_le_sum ns a.least.toNat fun n hn => (ha n hn).least
  have hmul := Nat.mul_le_mul_right a.least.toNat hb.least
  simp only [Bounds.times, Count.toNat_times]
  exact (Nat.min_le_left _ _).trans ((Nat.mul_comm _ _).le.trans (hmul.trans hsum))

theorem Bounds.allows_once : once.Allows 1 := ⟨Nat.le_refl 1, .inl (Nat.le_refl 1)⟩

/-! ### What a content model admits -/

/-- So many words of one kind after each other, the children in any order. -/
def Word.Repeats (A : Word → Prop) (n : Nat) (w : Word) : Prop :=
  ∃ ws : List Word, ws.length = n ∧ (∀ x ∈ ws, A x) ∧ w.Perm ws.flatten

mutual

/-- The words of a particle, where `key` is the name of an element's property. -/
def Particle.Admits (key : Element → String) : Particle → Word → Prop
  | ⟨least, most, term⟩, w => ∃ ws : List Word, Bounds.Allows ⟨least, most⟩ ws.length ∧
      (∀ x ∈ ws, Term.Admits key term x) ∧ w = ws.flatten

/-- The words of a term. -/
def Term.Admits (key : Element → String) : Term → Word → Prop
  | .element declaration, w => ∃ value, w = [(key declaration, value)]
  | .group group, w => ModelGroup.Admits key group w
  | _, _ => False

/-- The words of a model group. -/
def ModelGroup.Admits (key : Element → String) : ModelGroup → Word → Prop
  | ⟨.sequence, particles⟩, w => AdmitsAll key particles w
  | ⟨.all, particles⟩, w => ∃ u, AdmitsAll key particles u ∧ w.Perm u
  | ⟨.choice, particles⟩, w => AdmitsOne key particles w

/-- A word of each of some particles in turn. -/
def AdmitsAll (key : Element → String) : List Particle → Word → Prop
  | [], w => w = []
  | p :: rest, w => ∃ u v, Particle.Admits key p u ∧ AdmitsAll key rest v ∧ w = u ++ v

/-- A word of one of some particles. -/
def AdmitsOne (key : Element → String) : List Particle → Word → Prop
  | [], _ => False
  | p :: rest, w => Particle.Admits key p w ∨ AdmitsOne key rest w

end

namespace Word

variable {A B : Word → Prop} {n : Nat} {w : Word}

theorem repeats_cons {u v : Word} (hu : A u) (hv : Repeats A n v) : Repeats A (n + 1) (u ++ v) := by
  obtain ⟨ws, hlen, hws, hperm⟩ := hv
  exact ⟨u :: ws, by simp [hlen], List.forall_mem_cons.2 ⟨hu, hws⟩, hperm.append_left u⟩

theorem repeats_nil : Repeats A 0 [] := ⟨[], rfl, by simp, .refl _⟩

theorem Repeats.perm {u : Word} (h : Repeats A n w) (hp : u.Perm w) : Repeats A n u := by
  obtain ⟨ws, hlen, hws, hperm⟩ := h
  exact ⟨ws, hlen, hws, hp.trans hperm⟩

theorem repeats_one (h : A w) : Repeats A 1 w := by
  simpa using repeats_cons h repeats_nil

/-- What is true of no word, and stays true if a word is put in front, is true of repetitions. -/
theorem Repeats.induct {P : Nat → Word → Prop} (h : Repeats A n w) (hnil : P 0 [])
    (hcons : ∀ n u v, A u → P n v → P (n + 1) (u ++ v))
    (hperm : ∀ n u v, u.Perm v → P n v → P n u) : P n w := by
  obtain ⟨ws, rfl, hws, hp⟩ := h
  refine hperm _ _ _ hp ?_
  clear hp
  induction ws with
  | nil => exact hnil
  | cons u ws ih =>
      rw [List.forall_mem_cons] at hws
      exact hcons _ u _ hws.1 (ih hws.2)

theorem Repeats.eq_nil (h : Repeats A 0 w) : w = [] := by
  obtain ⟨ws, hlen, -, hperm⟩ := h
  rw [List.length_eq_zero_iff.1 hlen] at hperm
  exact List.perm_nil.1 hperm

theorem Repeats.of_one (h : Repeats A 1 w) : ∃ u, A u ∧ w.Perm u := by
  obtain ⟨ws, hlen, hws, hperm⟩ := h
  obtain ⟨u, rfl⟩ := List.length_eq_one_iff.1 hlen
  exact ⟨u, hws u List.mem_cons_self, by simpa using hperm⟩

theorem Repeats.mono (h : Repeats A n w) (hAB : ∀ u, A u → ∃ v, B v ∧ u.Perm v) :
    Repeats B n w := by
  refine h.induct (P := fun n w => Repeats B n w) repeats_nil (fun n u v hu hv => ?_)
    fun n u v hp hv => hv.perm hp
  obtain ⟨x, hx, hp⟩ := hAB u hu
  exact (repeats_cons hx hv).perm (hp.append_right v)

/-- Repetitions of one word after another are repetitions of both. -/
theorem Repeats.split {C : Word → Prop} (h : Repeats C n w)
    (hC : ∀ x, C x → ∃ u v, A u ∧ B v ∧ x = u ++ v) :
    ∃ u v, Repeats A n u ∧ Repeats B n v ∧ w.Perm (u ++ v) := by
  refine h.induct (P := fun n w => ∃ u v, Repeats A n u ∧ Repeats B n v ∧ w.Perm (u ++ v))
    ⟨[], [], repeats_nil, repeats_nil, .refl _⟩ (fun n x y hx hy => ?_) fun n x y hp hy => ?_
  · obtain ⟨a, b, ha, hb, rfl⟩ := hC x hx
    obtain ⟨u, v, hu, hv, hp⟩ := hy
    refine ⟨a ++ u, b ++ v, repeats_cons ha hu, repeats_cons hb hv, ?_⟩
    have hswap : (b ++ (u ++ v)).Perm (u ++ (b ++ v)) := List.perm_append_comm_assoc b u v
    simpa using (hp.append_left (a ++ b)).trans (by simpa using hswap.append_left a)
  · obtain ⟨u, v, hu, hv, hq⟩ := hy
    exact ⟨u, v, hu, hv, hp.trans hq⟩

/-- Repetitions of words of two kinds are repetitions of one kind and repetitions of the other. -/
theorem Repeats.partition {C : Word → Prop} (h : Repeats C n w) (hC : ∀ x, C x → A x ∨ B x) :
    ∃ i j u v, i + j = n ∧ Repeats A i u ∧ Repeats B j v ∧ w.Perm (u ++ v) := by
  refine h.induct
    (P := fun n w => ∃ i j u v, i + j = n ∧ Repeats A i u ∧ Repeats B j v ∧ w.Perm (u ++ v))
    ⟨0, 0, [], [], rfl, repeats_nil, repeats_nil, .refl _⟩ (fun n x y hx hy => ?_)
    fun n x y hp hy => ?_
  · obtain ⟨i, j, u, v, rfl, hu, hv, hp⟩ := hy
    rcases hC x hx with hx | hx
    · refine ⟨i + 1, j, x ++ u, v, by omega, repeats_cons hx hu, hv, ?_⟩
      simpa using hp.append_left x
    · refine ⟨i, j + 1, u, x ++ v, by omega, hu, repeats_cons hx hv, ?_⟩
      exact (hp.append_left x).trans (List.perm_append_comm_assoc x u v)
  · obtain ⟨i, j, u, v, hn, hu, hv, hq⟩ := hy
    exact ⟨i, j, u, v, hn, hu, hv, hp.trans hq⟩

end Word

section

open Word

variable {key : Element → String} {n : Nat} {w : Word}

/-- Repetitions of a particle are repetitions of its term, as often as the bounds of both allow. -/
theorem Particle.repeats {least : Count} {most : Limit} {term : Term} {outer : Bounds}
    (hn : outer.Allows n) (h : Repeats (Particle.Admits key ⟨least, most, term⟩) n w) :
    ∃ m, (Bounds.times ⟨least, most⟩ outer).Allows m ∧ Repeats (Term.Admits key term) m w := by
  have hsum : ∃ ns : List Nat, ns.length = n ∧ (∀ m ∈ ns, Bounds.Allows ⟨least, most⟩ m) ∧
      Repeats (Term.Admits key term) ns.sum w := by
    refine h.induct (P := fun n w => ∃ ns : List Nat, ns.length = n ∧
      (∀ m ∈ ns, Bounds.Allows ⟨least, most⟩ m) ∧ Repeats (Term.Admits key term) ns.sum w)
      ⟨[], rfl, by simp, repeats_nil⟩ (fun n u v hu hv => ?_) fun n u v hp hv => ?_
    · obtain ⟨us, hus, hterm, rfl⟩ := hu
      obtain ⟨ns, rfl, hns, ws, hlen, hws, hperm⟩ := hv
      refine ⟨us.length :: ns, rfl, List.forall_mem_cons.2 ⟨hus, hns⟩, us ++ ws, ?_, ?_, ?_⟩
      · simp [hlen]
      · exact List.forall_mem_append.2 ⟨hterm, hws⟩
      · simpa using hperm.append_left us.flatten
    · obtain ⟨ns, hlen, hns, hr⟩ := hv
      exact ⟨ns, hlen, hns, hr.perm hp⟩
  obtain ⟨ns, rfl, hns, hr⟩ := hsum
  exact ⟨ns.sum, Bounds.allows_times hns hn, hr⟩

theorem Term.count_of_repeats {declaration : Element}
    (h : Repeats (Term.Admits key (.element declaration)) n w) (name : String) :
    w.count name = if key declaration = name then n else 0 := by
  refine h.induct (P := fun n w => w.count name = if key declaration = name then n else 0)
    (by simp) (fun n u v hu hv => ?_) fun n u v hp hv => ?_
  · obtain ⟨value, rfl⟩ := hu
    rw [count_append, count_singleton, hv]
    split <;> omega
  · rw [count_perm hp, hv]

theorem AdmitsAll.repeats_cons {p : Particle} {rest : List Particle}
    (h : Repeats (AdmitsAll key (p :: rest)) n w) :
    ∃ u v, Repeats (p.Admits key) n u ∧ Repeats (AdmitsAll key rest) n v ∧ w.Perm (u ++ v) :=
  h.split fun _ hx => hx

theorem AdmitsAll.repeats_nil (h : Repeats (AdmitsAll key []) n w) : w = [] :=
  h.induct (P := fun _ w => w = []) rfl
    (fun _ u v hu hv => by rw [show u = [] from hu, hv]; rfl)
    fun _ _ _ hp hv => List.perm_nil.1 (hv ▸ hp)

theorem AdmitsOne.repeats_cons {p : Particle} {rest : List Particle}
    (h : Repeats (AdmitsOne key (p :: rest)) n w) :
    ∃ i j u v, i + j = n ∧ Repeats (p.Admits key) i u ∧ Repeats (AdmitsOne key rest) j v ∧
      w.Perm (u ++ v) :=
  h.partition fun _ hx => hx

theorem AdmitsOne.repeats_nil (h : Repeats (AdmitsOne key []) n w) : w = [] :=
  h.induct (P := fun _ w => w = []) rfl (fun _ _ _ hu _ => hu.elim)
    fun _ _ _ hp hv => List.perm_nil.1 (hv ▸ hp)

/-- A word of one of the particles is a word of some particle. -/
theorem admitsOne_iff {particles : List Particle} :
    AdmitsOne key particles w ↔ ∃ p ∈ particles, p.Admits key w := by
  induction particles with
  | nil => simp [AdmitsOne]
  | cons p rest ih => simp [AdmitsOne, ih]

end

end Crosswalk
