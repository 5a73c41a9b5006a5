import Crosswalk.Number.Lexical
import Crosswalk.Proofs.Json.Alike
import Mathlib.Algebra.Order.Field.Power
import Mathlib.Data.Rat.Cast.Order
import Mathlib.Tactic.FieldSimp
import Mathlib.Tactic.Positivity

/-!
# Exact values

A numeral, a floating-point number and a JSON number each stand for one rational number, their
`value`. The comparisons of the program are made on whole numbers over common denominators;
`Double.compare_eq` and `Number.compare_value` say that they are the order of the values.
-/

namespace Crosswalk

/-- The factor that a minus sign stands for. -/
def signFactor (negative : Bool) : ℚ := if negative then -1 else 1

@[simp] theorem signFactor_true : signFactor true = -1 := rfl

@[simp] theorem signFactor_false : signFactor false = 1 := rfl

theorem zpow_eq_div {b : ℚ} (hb : b ≠ 0) (e : ℤ) : b ^ e = b ^ e.toNat / b ^ (-e).toNat := by
  rw [← zpow_natCast, ← zpow_natCast, ← zpow_sub₀ hb, Int.toNat_sub_toNat_neg]

namespace Double

/-- The magnitude of the number. -/
def size (x : Double) : ℚ := x.mantissa * 2 ^ x.exponent

/-- The number that is meant. -/
def value (x : Double) : ℚ := signFactor x.negative * x.size

theorem size_nonneg (x : Double) : 0 ≤ x.size := by unfold size; positivity

theorem size_eq (x : Double) : x.size = x.magnitude.1 / x.magnitude.2 := by
  unfold size magnitude
  rw [zpow_eq_div two_ne_zero]
  simp only [Nat.pow_eq]
  push_cast
  ring

theorem value_eq (x : Double) : x.value = x.signedNumerator / x.magnitude.2 := by
  unfold value signedNumerator
  rw [size_eq]
  cases x.negative <;> simp [neg_div]

end Double

namespace Numeral

/-- The magnitude of the number. -/
def size (n : Numeral) : ℚ := n.digits * 10 ^ n.exponent

/-- The number that is meant. -/
def value (n : Numeral) : ℚ := signFactor n.negative * n.size

theorem size_nonneg (n : Numeral) : 0 ≤ n.size := by unfold size; positivity

end Numeral

namespace Number

open Check

/-- The number that is meant. -/
def value : Number → ℚ
  | .int n => n
  | .float x => x.value

@[simp] theorem value_int (n : ℤ) : (Number.int n).value = n := rfl

@[simp] theorem value_float (x : Double) : (Number.float x).value = x.value := rfl

theorem value_eq_ratioOf (a : Number) : a.value = (ratioOf a).1 / (ratioOf a).2 := by
  cases a with
  | int n => simp [ratioOf]
  | float x => exact x.value_eq

theorem compare_div {a b c d : ℤ} (hb : 0 < b) (hd : 0 < d) :
    Ord.compare (a * d) (c * b) = Ord.compare ((a : ℚ) / b) ((c : ℚ) / d) := by
  have hb' : (0 : ℚ) < b := Int.cast_pos.2 hb
  have hd' : (0 : ℚ) < d := Int.cast_pos.2 hd
  rcases lt_trichotomy (a * d) (c * b) with h | h | h
  · rw [compare_lt_iff_lt.2 h, eq_comm, compare_lt_iff_lt, div_lt_div_iff₀ hb' hd']
    exact_mod_cast h
  · rw [compare_eq_iff_eq.2 h, eq_comm, compare_eq_iff_eq, div_eq_div_iff hb'.ne' hd'.ne']
    exact_mod_cast h
  · rw [compare_gt_iff_gt.2 h, eq_comm, compare_gt_iff_gt, div_lt_div_iff₀ hd' hb']
    exact_mod_cast h

/-- Numbers are compared by value. -/
theorem compare_value (a b : Number) : a.compare b = Ord.compare a.value b.value := by
  rw [compare_eq, value_eq_ratioOf, value_eq_ratioOf]
  exact_mod_cast compare_div (ratioOf_pos a) (ratioOf_pos b)

end Number

/-- Floating-point numbers are compared by value. -/
theorem Double.compare_eq (x y : Double) : x.compare y = Ord.compare x.value y.value :=
  Number.compare_value (.float x) (.float y)

end Crosswalk
