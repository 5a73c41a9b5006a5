import Crosswalk.Occurs
import Mathlib.Data.ENat.Basic

/-!
# Occurrence bounds as numbers

A count is a number up to the greatest one, and a limit is such a number or infinite. Sums and
products of bounds are those of the numbers, as far as they can be counted: `Count.ofNat` and
`Limit.ofENat`, which cut a number off at the greatest count, commute with both. Every bound is that
of some number. So the laws of numbers hold of bounds as well: sums and products may be taken in any
order and grouping, products distribute over sums, and both grow with what they are made of.
-/

namespace Crosswalk

/-! ### Counts -/

namespace Count

theorem ofNat_add (a b : ℕ) : ofNat (a + b) = (ofNat a).plus (ofNat b) := by
  refine ext_toNat ?_
  simp only [toNat_plus, toNat_ofNat]
  omega

theorem ofNat_mul (a b : ℕ) : ofNat (a * b) = (ofNat a).times (ofNat b) := by
  refine ext_toNat ?_
  simp only [toNat_times, toNat_ofNat]
  rcases Nat.eq_zero_or_pos a with rfl | ha
  · simp
  rcases Nat.eq_zero_or_pos b with rfl | hb
  · simp
  have hpos : 0 < greatest := by decide
  have hla : a ≤ a * b := Nat.le_mul_of_pos_right a hb
  have hlb : b ≤ a * b := Nat.le_mul_of_pos_left b ha
  rcases le_total a greatest with hga | hga
  · rcases le_total b greatest with hgb | hgb
    · rw [Nat.min_eq_left hga, Nat.min_eq_left hgb]
    · have hle : greatest ≤ a * greatest := Nat.le_mul_of_pos_left _ ha
      rw [Nat.min_eq_left hga, Nat.min_eq_right hgb, Nat.min_eq_right hle,
        Nat.min_eq_right (hgb.trans hlb)]
  · have hle : greatest ≤ greatest * min b greatest :=
      Nat.le_mul_of_pos_right _ (Nat.lt_min.2 ⟨hb, hpos⟩)
    rw [Nat.min_eq_right hga, Nat.min_eq_right hle, Nat.min_eq_right (hga.trans hla)]

theorem times_assoc (a b c : Count) : (a.times b).times c = a.times (b.times c) := by
  rw [← ofNat_toNat a, ← ofNat_toNat b, ← ofNat_toNat c]
  simp only [← ofNat_mul, Nat.mul_assoc]

end Count

/-! ### Limits -/

namespace Limit

variable {a b c d : Limit}

/-- The limit as a number, if need be infinite. -/
def toENat : Limit → ℕ∞
  | bounded c => c.toNat
  | unbounded => ⊤

/-- The limit of so many occurrences, as far as they can be counted. -/
def ofENat : ℕ∞ → Limit
  | none => unbounded
  | some n => bounded (.ofNat n)

@[simp] theorem ofENat_top : ofENat ⊤ = unbounded := rfl

@[simp] theorem ofENat_natCast (n : ℕ) : ofENat n = bounded (.ofNat n) := rfl

@[simp] theorem ofENat_toENat (l : Limit) : ofENat l.toENat = l := by
  cases l with
  | bounded c => exact congrArg bounded c.ofNat_toNat
  | unbounded => rfl

theorem ofENat_surjective : Function.Surjective ofENat := fun l => ⟨l.toENat, ofENat_toENat l⟩

theorem ofENat_eq_zero_iff {n : ℕ∞} : ofENat n = zero ↔ n = 0 := by
  induction n with
  | top => simp [zero]
  | coe n => simp [zero, Count.zero, Count.ofNat, Count.greatest]

/-! #### Order -/

theorem bounded_le_bounded {c d : Count} : bounded c ≤ bounded d ↔ c.toNat ≤ d.toNat :=
  decide_eq_true_iff

theorem le_unbounded (a : Limit) : a ≤ unbounded := by
  cases a <;> rfl

theorem not_unbounded_le (c : Count) : ¬ unbounded ≤ bounded c := Bool.false_ne_true

theorem le_iff : a ≤ b ↔ a.toENat ≤ b.toENat := by
  cases b with
  | unbounded => exact iff_of_true (le_unbounded a) le_top
  | bounded d =>
      cases a with
      | unbounded => exact iff_of_false (not_unbounded_le d) (by simp [toENat])
      | bounded c => exact bounded_le_bounded.trans Nat.cast_le.symm

theorem le_refl (a : Limit) : a ≤ a := le_iff.2 le_rfl

theorem le_trans (h : a ≤ b) (h' : b ≤ c) : a ≤ c := le_iff.2 ((le_iff.1 h).trans (le_iff.1 h'))

theorem le_antisymm (h : a ≤ b) (h' : b ≤ a) : a = b := by
  rw [← ofENat_toENat a, ← ofENat_toENat b, (le_iff.1 h).antisymm (le_iff.1 h')]

theorem le_total (a b : Limit) : a ≤ b ∨ b ≤ a :=
  (total_of (· ≤ ·) a.toENat b.toENat).imp le_iff.2 le_iff.2

theorem le_greater_left (a b : Limit) : a ≤ a.greater b := by
  unfold greater
  split
  · assumption
  · exact le_refl a

theorem le_greater_right (a b : Limit) : b ≤ a.greater b := by
  unfold greater
  split
  · exact le_refl b
  · next h => exact (le_total a b).resolve_left h

theorem ofENat_le_ofENat {m n : ℕ∞} (h : m ≤ n) : ofENat m ≤ ofENat n := by
  induction n with
  | top => exact le_unbounded _
  | coe n =>
      induction m with
      | top => exact absurd (top_le_iff.1 h) (ENat.natCast_ne_top n)
      | coe m => exact bounded_le_bounded.2 (min_le_min_right _ (Nat.cast_le.1 h))

/-! #### Sums and products -/

theorem ofENat_add (a b : ℕ∞) : ofENat (a + b) = (ofENat a).plus (ofENat b) := by
  induction a with
  | top => simp [plus]
  | coe a =>
      induction b with
      | top => simp [plus]
      | coe b => exact congrArg bounded (Count.ofNat_add a b)

theorem times_comm (a b : Limit) : a.times b = b.times a := by
  have hcount : ∀ c d : Count, c.times d = d.times c := fun c d =>
    Count.ext_toNat (by rw [Count.toNat_times, Count.toNat_times, Nat.mul_comm])
  cases a <;> cases b <;> simp [times, hcount]

/-- Whatever has no limit has none in something that occurs at all. -/
theorem times_unbounded (n : ℕ∞) : (ofENat n).times unbounded = ofENat (n * ⊤) := by
  by_cases hn : n = 0
  · subst hn
    rfl
  · rw [ENat.mul_top hn]
    induction n with
    | top => rfl
    | coe n =>
        have hne : min n Count.greatest ≠ 0 := by
          have hg : Count.greatest ≠ 0 := by decide
          have hn : n ≠ 0 := fun h => hn (congrArg _ h)
          omega
        exact if_neg hne

theorem ofENat_mul (a b : ℕ∞) : ofENat (a * b) = (ofENat a).times (ofENat b) := by
  induction b with
  | top => exact (times_unbounded a).symm
  | coe b =>
      induction a with
      | top =>
          rw [mul_comm, times_comm]
          exact (times_unbounded b).symm
      | coe a => exact congrArg bounded (Count.ofNat_mul a b)

theorem plus_eq (a b : Limit) : a.plus b = ofENat (a.toENat + b.toENat) := by
  rw [ofENat_add, ofENat_toENat, ofENat_toENat]

theorem times_eq (a b : Limit) : a.times b = ofENat (a.toENat * b.toENat) := by
  rw [ofENat_mul, ofENat_toENat, ofENat_toENat]

theorem plus_comm (a b : Limit) : a.plus b = b.plus a := by
  rw [plus_eq, add_comm, ← plus_eq]

theorem plus_assoc (a b c : Limit) : (a.plus b).plus c = a.plus (b.plus c) := by
  obtain ⟨a, rfl⟩ := ofENat_surjective a
  obtain ⟨b, rfl⟩ := ofENat_surjective b
  obtain ⟨c, rfl⟩ := ofENat_surjective c
  simp only [← ofENat_add, add_assoc]

theorem zero_plus (a : Limit) : zero.plus a = a := by
  rw [plus_eq]
  exact (congrArg ofENat (zero_add _)).trans (ofENat_toENat a)

theorem times_assoc (a b c : Limit) : (a.times b).times c = a.times (b.times c) := by
  obtain ⟨a, rfl⟩ := ofENat_surjective a
  obtain ⟨b, rfl⟩ := ofENat_surjective b
  obtain ⟨c, rfl⟩ := ofENat_surjective c
  simp only [← ofENat_mul, mul_assoc]

theorem one_times (a : Limit) : one.times a = a := by
  rw [times_eq]
  exact (congrArg ofENat (one_mul _)).trans (ofENat_toENat a)

theorem zero_times (a : Limit) : zero.times a = .zero := by
  rw [times_eq]
  exact congrArg ofENat (zero_mul _)

theorem times_plus (a b c : Limit) : a.times (b.plus c) = (a.times b).plus (a.times c) := by
  obtain ⟨a, rfl⟩ := ofENat_surjective a
  obtain ⟨b, rfl⟩ := ofENat_surjective b
  obtain ⟨c, rfl⟩ := ofENat_surjective c
  simp only [← ofENat_add, ← ofENat_mul, mul_add]

theorem plus_le_plus (h : a ≤ b) (h' : c ≤ d) : a.plus c ≤ b.plus d := by
  rw [plus_eq, plus_eq]
  exact ofENat_le_ofENat (add_le_add (le_iff.1 h) (le_iff.1 h'))

theorem times_le_times (h : a ≤ b) (h' : c ≤ d) : a.times c ≤ b.times d := by
  rw [times_eq, times_eq]
  exact ofENat_le_ofENat (mul_le_mul' (le_iff.1 h) (le_iff.1 h'))

end Limit

theorem Bounds.times_assoc (a b c : Bounds) : (a.times b).times c = a.times (b.times c) := by
  simp only [times, Count.times_assoc, Limit.times_assoc]

end Crosswalk
