import Crosswalk.Proofs.Number.Value
import Mathlib.Data.Nat.Log
import Mathlib.Tactic.Linarith
import Mathlib.Tactic.NormNum

/-!
# Rounding to the format

`Rounds q v` says that `v` is `q` rounded to the format: a whole number of units of a power of two,
where the unit is so fine that `q` has 53 binary places before it, or the finest of all, and the
whole number is the nearest one. `Double.ofRatio?` and `Numeral.toDouble?` are specified by it. All
that is used of rounding follows from there: it keeps the order (`Rounds.mono`), and what the
format has stays as it is (`Rounds.exact`).
-/

namespace Crosswalk

/-- The nearest whole number; of two it is the even one. -/
def IsNearest (x : ℚ) (m : ℕ) : Prop := |x - m| ≤ 1 / 2 ∧ (|x - m| = 1 / 2 → Even m)

namespace IsNearest

theorem mono {x y : ℚ} {m n : ℕ} (hm : IsNearest x m) (hn : IsNearest y n) (h : x ≤ y) :
    m ≤ n := by
  by_contra hlt
  have hsucc : n + 1 ≤ m := Nat.not_le.1 hlt
  have hcast : (n : ℚ) + 1 ≤ m := by exact_mod_cast hsucc
  have hx := abs_le.1 hm.1
  have hy := abs_le.1 hn.1
  -- Both lie half way between `n` and `m`, which are neighbours and cannot both be even.
  have hmid : (m : ℚ) = n + 1 := by linarith [hx.1, hy.2]
  have hxm : x - m = -(1 / 2) := by linarith [hx.1, hy.2]
  have hyn : y - n = 1 / 2 := by linarith [hx.1, hy.2]
  have heven := hm.2 (by rw [hxm, abs_neg, abs_of_pos]; norm_num)
  have heven' := hn.2 (by rw [hyn, abs_of_pos]; norm_num)
  have hmn : m = n + 1 := by exact_mod_cast hmid
  exact (Nat.even_add_one.1 (hmn ▸ heven)) heven'

theorem natCast (m : ℕ) : IsNearest m m := by
  refine ⟨by simp, fun h => ?_⟩
  norm_num at h

theorem eq_natCast {m n : ℕ} (h : IsNearest m n) : n = m :=
  le_antisymm (h.mono (natCast m) le_rfl) ((natCast m).mono h le_rfl)

end IsNearest

/-- The nonnegative number `q` is `v` when it is rounded. -/
def Rounds (q v : ℚ) : Prop :=
  ∃ (unit : ℤ) (m : ℕ), -1074 ≤ unit ∧ q < 2 ^ 53 * 2 ^ unit ∧
    (unit = -1074 ∨ 2 ^ 52 * 2 ^ unit ≤ q) ∧ IsNearest (q / 2 ^ unit) m ∧ v = m * 2 ^ unit

theorem two_zpow_pos (e : ℤ) : (0 : ℚ) < 2 ^ e := zpow_pos two_pos e

/-- A finer unit has at most half the size. -/
theorem two_mul_zpow_le {e f : ℤ} (h : e < f) : 2 * (2 : ℚ) ^ e ≤ 2 ^ f := by
  calc
    2 * (2 : ℚ) ^ e = 2 ^ (e + 1) := by rw [zpow_add_one₀ two_ne_zero]; ring
    _ ≤ 2 ^ f := zpow_le_zpow_right₀ one_le_two h

namespace Rounds

/-- Rounding keeps the order. -/
theorem mono {p q v w : ℚ} (hp : Rounds p v) (hq : Rounds q w) (h : p ≤ q) : v ≤ w := by
  obtain ⟨e, m, hleast, hlt, he, hm, rfl⟩ := hp
  obtain ⟨f, n, hleast', hlt', hf, hn, rfl⟩ := hq
  have hpe := two_zpow_pos e
  have hpf := two_zpow_pos f
  rcases lt_trichotomy e f with hef | rfl | hef
  · -- A coarser unit begins where the finer one ends.
    have hfe := two_mul_zpow_le hef
    have hstart : 2 ^ 52 * (2 : ℚ) ^ f ≤ q := hf.resolve_left (by omega)
    have hm' : m ≤ 2 ^ 53 := by
      refine hm.mono (IsNearest.natCast (2 ^ 53)) ?_
      rw [div_le_iff₀ hpe]
      exact_mod_cast hlt.le
    have hn' : 2 ^ 52 ≤ n := by
      refine (IsNearest.natCast (2 ^ 52)).mono hn ?_
      rw [le_div_iff₀ hpf]
      exact_mod_cast hstart
    calc
      (m : ℚ) * 2 ^ e ≤ 2 ^ 53 * 2 ^ e := by gcongr; exact_mod_cast hm'
      _ ≤ 2 ^ 52 * 2 ^ f := by linarith
      _ ≤ n * 2 ^ f := by gcongr; exact_mod_cast hn'
  · gcongr
    exact hm.mono hn (by gcongr)
  · have hfe := two_mul_zpow_le hef
    have hstart : 2 ^ 52 * (2 : ℚ) ^ e ≤ p := he.resolve_left (by omega)
    linarith

/-- A number of the format stays as it is. -/
theorem exact {v : ℚ} {m : ℕ} {e : ℤ} (h : Rounds (m * 2 ^ e) v) (hm : m < 2 ^ 53)
    (he : -1074 ≤ e) : v = m * 2 ^ e := by
  obtain ⟨f, n, -, -, hf, hn, rfl⟩ := h
  have hfe : f ≤ e := by
    rcases hf with rfl | hf
    · exact he
    · by_contra hlt
      have hunit := two_mul_zpow_le (not_le.1 hlt)
      have hcast : (m : ℚ) < 2 ^ 53 := by exact_mod_cast hm
      have hsize : (m : ℚ) * 2 ^ e < 2 ^ 53 * 2 ^ e := by gcongr
      linarith
  -- In the finer unit the number is whole.
  obtain ⟨k, hk⟩ := Int.le.dest hfe
  have hpow : (2 : ℚ) ^ e = 2 ^ k * 2 ^ f := by
    rw [← hk, zpow_add₀ two_ne_zero, zpow_natCast]; ring
  have hquot : (m : ℚ) * 2 ^ e / 2 ^ f = ((m * 2 ^ k : ℕ) : ℚ) := by
    rw [hpow, div_eq_iff (two_zpow_pos f).ne']
    push_cast
    ring
  rw [hquot] at hn
  rw [hn.eq_natCast, hpow]
  push_cast
  ring

theorem zero : Rounds 0 0 := by
  refine ⟨-1074, 0, le_rfl, by positivity, .inl rfl, ?_, by simp⟩
  simpa using IsNearest.natCast 0

theorem eq_zero {v : ℚ} (h : Rounds 0 v) : v = 0 := by
  have h' : Rounds (((0 : ℕ) : ℚ) * 2 ^ (0 : ℤ)) v := by simpa using h
  simpa using h'.exact (by norm_num) (by norm_num)

theorem nonneg {q v : ℚ} (h : Rounds q v) : 0 ≤ v := by
  obtain ⟨e, m, -, -, -, -, rfl⟩ := h
  have := two_zpow_pos e
  positivity

/-- What is less than half of the finest unit is no more than zero. -/
theorem zero_of_lt {q : ℚ} (h0 : 0 ≤ q) (h : q < 2 ^ (-1075 : ℤ)) : Rounds q 0 := by
  have hhalf : (2 : ℚ) ^ (-1075 : ℤ) = 2 ^ (-1074 : ℤ) / 2 := by
    rw [show (-1075 : ℤ) = -1074 - 1 by norm_num, zpow_sub_one₀ two_ne_zero]; ring
  have hpos := two_zpow_pos (-1074)
  have hle : q / 2 ^ (-1074 : ℤ) < 1 / 2 := by
    rw [div_lt_iff₀ hpos]; linarith
  have hnonneg : 0 ≤ q / 2 ^ (-1074 : ℤ) := by positivity
  refine ⟨-1074, 0, le_rfl, by linarith, .inl rfl, ⟨?_, fun hhalf => ?_⟩, by simp⟩
  · rw [Nat.cast_zero, sub_zero, abs_of_nonneg hnonneg]; exact hle.le
  · exact Even.zero

end Rounds

namespace Double

/-! ### Ratios -/

/-- A ratio is its quotient and a fraction of one. -/
theorem ratio_eq (num : ℕ) {den : ℕ} (h : 0 < den) :
    (num : ℚ) / den = (num / den : ℕ) + (num % den : ℕ) / den := by
  have hd : (den : ℚ) ≠ 0 := Nat.cast_ne_zero.2 h.ne'
  rw [add_div_eq_mul_add_div _ _ hd]
  congr 1
  exact_mod_cast (Nat.div_add_mod' num den).symm

theorem isNearest_roundQuotient (num : ℕ) {den : ℕ} (h : 0 < den) :
    IsNearest (num / den) (roundQuotient num den) := by
  have hd : (0 : ℚ) < den := Nat.cast_pos.2 h
  rw [ratio_eq num h]
  -- What matters of the fraction is whether it lies below one half.
  have hhalf : ∀ r : ℕ, (2 * r < den → (r : ℚ) / den < 1 / 2) ∧
      (den < 2 * r → 1 / 2 < (r : ℚ) / den) ∧ (2 * r = den → (r : ℚ) / den = 1 / 2) := by
    intro r
    refine ⟨fun hr => ?_, fun hr => ?_, fun hr => ?_⟩
    · rw [div_lt_div_iff₀ hd two_pos]; exact_mod_cast (by omega : r * 2 < 1 * den)
    · rw [div_lt_div_iff₀ two_pos hd]; exact_mod_cast (by omega : 1 * den < r * 2)
    · rw [div_eq_div_iff hd.ne' two_ne_zero]; exact_mod_cast (by omega : r * 2 = 1 * den)
  obtain ⟨hlow, hhigh, hmid⟩ := hhalf (num % den)
  have hnonneg : (0 : ℚ) ≤ (num % den : ℕ) / den := by positivity
  have hone : ((num % den : ℕ) : ℚ) / den < 1 := by
    rw [div_lt_one hd]; exact_mod_cast Nat.mod_lt num h
  unfold roundQuotient IsNearest
  dsimp only
  generalize num / den = q, num % den = r at *
  split_ifs with hlt hgt
  · rw [add_sub_cancel_left, abs_of_nonneg hnonneg]
    exact ⟨(hlow hlt).le, fun heq => absurd heq (hlow hlt).ne⟩
  · have habs : |(q : ℚ) + r / den - (q + 1 : ℕ)| = 1 - r / den := by
      rw [abs_sub_comm, abs_of_nonneg] <;> push_cast <;> linarith
    rw [habs]
    exact ⟨by linarith [hhigh hgt], fun heq => absurd heq (by linarith [hhigh hgt])⟩
  · rw [hmid (by omega)]
    rcases Nat.even_or_odd q with heven | hodd
    · rw [Nat.even_iff.1 heven, add_zero, add_sub_cancel_left, abs_of_pos one_half_pos]
      exact ⟨le_rfl, fun _ => heven⟩
    · rw [Nat.odd_iff.1 hodd, abs_sub_comm, abs_of_nonneg] <;> push_cast
      · exact ⟨by linarith, fun _ => hodd.add_one⟩
      · linarith

theorem inUnits_eq (num den : ℕ) (e : ℤ) :
    ((inUnits num den e).1 : ℚ) / (inUnits num den e).2 = num / den / 2 ^ e := by
  unfold inUnits
  rw [zpow_eq_div two_ne_zero e]
  simp only [Nat.pow_eq]
  push_cast
  field_simp

theorem inUnits_pos {den : ℕ} (h : 0 < den) (num : ℕ) (e : ℤ) : 0 < (inUnits num den e).2 :=
  Nat.mul_pos h (Nat.pow_pos two_pos)

/-- A positive ratio lies between the powers of two that the lengths of its parts give. -/
theorem ratio_bounds {num den : ℕ} (hn : 0 < num) (hd : 0 < den) :
    (2 : ℚ) ^ ((Nat.log2 num : ℤ) - Nat.log2 den - 1) < num / den ∧
      (num : ℚ) / den < 2 ^ ((Nat.log2 num : ℤ) - Nat.log2 den + 1) := by
  have hlow : ∀ {k : ℕ}, 0 < k → (2 : ℚ) ^ (Nat.log2 k : ℤ) ≤ k := fun hk => by
    rw [zpow_natCast]; exact_mod_cast Nat.log2_self_le hk.ne'
  have hhigh : ∀ {k : ℕ}, (k : ℚ) < 2 ^ ((Nat.log2 k : ℤ) + 1) := fun {k} => by
    exact_mod_cast Nat.lt_log2_self
  have hd' : (0 : ℚ) < den := Nat.cast_pos.2 hd
  constructor
  · rw [lt_div_iff₀ hd']
    calc
      (2 : ℚ) ^ ((Nat.log2 num : ℤ) - Nat.log2 den - 1) * den <
          2 ^ ((Nat.log2 num : ℤ) - Nat.log2 den - 1) * 2 ^ ((Nat.log2 den : ℤ) + 1) := by
        gcongr
        exact hhigh
      _ = 2 ^ (Nat.log2 num : ℤ) := by rw [← zpow_add₀ two_ne_zero]; congr 1; ring
      _ ≤ num := hlow hn
  · rw [div_lt_iff₀ hd']
    calc
      (num : ℚ) < 2 ^ ((Nat.log2 num : ℤ) + 1) := hhigh
      _ = 2 ^ ((Nat.log2 num : ℤ) - Nat.log2 den + 1) * 2 ^ (Nat.log2 den : ℤ) := by
        rw [← zpow_add₀ two_ne_zero]; congr 1; ring
      _ ≤ 2 ^ ((Nat.log2 num : ℤ) - Nat.log2 den + 1) * den := by
        gcongr
        exact hlow hd

theorem pow_mul_zpow (k : ℕ) (e : ℤ) : (2 : ℚ) ^ k * 2 ^ e = 2 ^ ((k : ℤ) + e) := by
  rw [zpow_add₀ two_ne_zero, zpow_natCast]

/-- Of the two units that the lengths leave open, a comparison chooses the one that leaves 53
places. -/
theorem chosenUnit_bounds {num den : ℕ} (hn : 0 < num) (hd : 0 < den) {least : ℤ}
    (hl : least = (Nat.log2 num : ℤ) - Nat.log2 den - 53) :
    let unit := if (inUnits num den least).1 < Nat.pow 2 53 * (inUnits num den least).2
      then least else least + 1
    (num : ℚ) / den < 2 ^ 53 * 2 ^ unit ∧ 2 ^ 52 * 2 ^ unit ≤ (num : ℚ) / den := by
  obtain ⟨hlow, hhigh⟩ := ratio_bounds hn hd
  have hscaled : (inUnits num den least).1 < Nat.pow 2 53 * (inUnits num den least).2 ↔
      (num : ℚ) / den < 2 ^ 53 * 2 ^ least := by
    rw [← div_lt_iff₀ (two_zpow_pos least), ← inUnits_eq,
      div_lt_iff₀ (Nat.cast_pos.2 (inUnits_pos hd num _))]
    norm_cast
  have hbelow : (2 : ℚ) ^ 52 * 2 ^ least = 2 ^ ((Nat.log2 num : ℤ) - Nat.log2 den - 1) := by
    rw [pow_mul_zpow, hl]; congr 1; push_cast; ring
  have habove : (2 : ℚ) ^ 53 * 2 ^ (least + 1) =
      2 ^ ((Nat.log2 num : ℤ) - Nat.log2 den + 1) := by
    rw [pow_mul_zpow, hl]; congr 1; push_cast; ring
  have hnext : (2 : ℚ) ^ 52 * 2 ^ (least + 1) = 2 ^ 53 * 2 ^ least := by
    rw [pow_mul_zpow, pow_mul_zpow]; congr 1; push_cast; ring
  dsimp only
  split_ifs with hlt
  · exact ⟨hscaled.1 hlt, hbelow ▸ hlow.le⟩
  · exact ⟨habove ▸ hhigh, hnext ▸ not_lt.1 fun h => hlt (hscaled.2 h)⟩

/-- The unit leaves 53 binary places before it, or is the finest of the format. -/
theorem unitOf_bounds {num den : ℕ} (hn : 0 < num) (hd : 0 < den) :
    -1074 ≤ unitOf num den ∧ (num : ℚ) / den < 2 ^ 53 * 2 ^ unitOf num den ∧
      (unitOf num den = -1074 ∨ 2 ^ 52 * 2 ^ unitOf num den ≤ (num : ℚ) / den) := by
  obtain ⟨hupper, hlower⟩ := chosenUnit_bounds hn hd rfl
  unfold unitOf
  dsimp only at hupper hlower ⊢
  generalize (if (_ : ℕ) < _ then _ else _ : ℤ) = unit at *
  refine ⟨le_max_right _ _, hupper.trans_le ?_, ?_⟩
  · gcongr
    · exact one_le_two
    · exact le_max_left _ _
  · rcases le_total unit (-1074) with h | h
    · exact .inl (max_eq_right h)
    · rw [max_eq_left h]
      exact .inr hlower

/-- What a ratio is rounded to, if that is not beyond the largest number. -/
theorem ofRatio?_eq (negative : Bool) {num den : ℕ} (hn : 0 < num) (hd : 0 < den) :
    ∃ x : Double, x.negative = negative ∧ Rounds (num / den) x.size ∧
      (x.exponent = unitOf num den ∨ x.exponent = unitOf num den + 1) ∧
      ofRatio? negative num den = if x.exponent > 971 then none else some x := by
  obtain ⟨hleast, hupper, hlower⟩ := unitOf_bounds hn hd
  have hnear := isNearest_roundQuotient (inUnits num den (unitOf num den)).1
    (inUnits_pos hd num (unitOf num den))
  rw [inUnits_eq] at hnear
  unfold ofRatio?
  rw [if_neg hn.ne']
  dsimp only
  generalize unitOf num den = unit at *
  generalize roundQuotient _ _ = rounded at *
  by_cases hcarry : rounded = Nat.pow 2 53
  · -- The rounded quotient has one place more, and the unit is doubled.
    rw [if_pos hcarry]
    refine ⟨⟨negative, Nat.pow 2 52, unit + 1⟩, rfl, ?_, .inr rfl, rfl⟩
    refine ⟨unit, rounded, hleast, hupper, hlower, hnear, ?_⟩
    simp only [size, hcarry, Nat.pow_eq]
    rw [zpow_add_one₀ two_ne_zero]
    push_cast
    ring
  · rw [if_neg hcarry]
    exact ⟨⟨negative, rounded, unit⟩, rfl, ⟨unit, rounded, hleast, hupper, hlower, hnear, rfl⟩,
      .inl rfl, rfl⟩

theorem rounds_of_ofRatio? {negative : Bool} {num den : ℕ} {x : Double} (hd : 0 < den)
    (h : ofRatio? negative num den = some x) :
    x.negative = negative ∧ Rounds (num / den) x.size := by
  rcases Nat.eq_zero_or_pos num with rfl | hn
  · obtain rfl := Option.some.inj ((ofRatio?_zero negative den).symm.trans h)
    exact ⟨rfl, by simpa [size, zero] using Rounds.zero⟩
  · obtain ⟨y, hs, hr, -, heq⟩ := ofRatio?_eq negative hn hd
    rw [heq] at h
    split_ifs at h
    obtain rfl := Option.some.inj h
    exact ⟨hs, hr⟩

/-- A ratio that is not huge is rounded to a number. -/
theorem isSome_ofRatio? (negative : Bool) {num den : ℕ} (hd : 0 < den)
    (h : (num : ℚ) / den < 2 ^ 1000) : (ofRatio? negative num den).isSome := by
  rcases Nat.eq_zero_or_pos num with rfl | hn
  · simp
  · obtain ⟨x, -, -, hx, heq⟩ := ofRatio?_eq negative hn hd
    obtain ⟨-, -, hlower⟩ := unitOf_bounds hn hd
    have hunit : unitOf num den < 948 := by
      rcases hlower with hfinest | hlower
      · omega
      · have hlt := hlower.trans_lt h
        rw [pow_mul_zpow, ← zpow_natCast, zpow_lt_zpow_iff_right₀ one_lt_two] at hlt
        omega
    rw [heq, if_neg (by omega)]
    rfl

end Double

namespace Numeral

/-! ### Decimals -/

theorem size_eq (n : Numeral) :
    n.size =
      (n.digits * Nat.pow 10 n.exponent.toNat : ℕ) / (Nat.pow 10 (-n.exponent).toNat : ℕ) := by
  unfold size
  rw [zpow_eq_div (by norm_num)]
  simp only [Nat.pow_eq]
  push_cast
  ring

/-- A decimal is less than the power of ten that the length of its digits in binary gives. -/
theorem size_lt (n : Numeral) :
    n.size < 10 ^ (n.exponent + (Nat.log2 n.digits / 3 + 1 : ℕ)) := by
  have hdigits : n.digits < 10 ^ (Nat.log2 n.digits / 3 + 1) := calc
    n.digits < 2 ^ (Nat.log2 n.digits + 1) := Nat.lt_log2_self
    _ ≤ 2 ^ (3 * (Nat.log2 n.digits / 3 + 1)) := Nat.pow_le_pow_right two_pos (by omega)
    _ = 8 ^ (Nat.log2 n.digits / 3 + 1) := by rw [Nat.pow_mul]
    _ ≤ 10 ^ (Nat.log2 n.digits / 3 + 1) := Nat.pow_le_pow_left (by norm_num) _
  have hten : (0 : ℚ) < 10 ^ n.exponent := zpow_pos (by norm_num) _
  have hcast : (n.digits : ℚ) < 10 ^ (Nat.log2 n.digits / 3 + 1) := by exact_mod_cast hdigits
  unfold size
  rw [zpow_add₀ (by norm_num), zpow_natCast, mul_comm ((10 : ℚ) ^ n.exponent)]
  gcongr

/-- The nearest floating-point number of a numeral has its sign and its size rounded. -/
theorem rounds_of_toDouble? {n : Numeral} {x : Double} (h : n.toDouble? = some x) :
    x.negative = n.negative ∧ Rounds n.size x.size := by
  have hzero : ∀ {y : Double}, Double.zero n.negative = y → Rounds n.size 0 →
      y.negative = n.negative ∧ Rounds n.size y.size := by
    rintro y rfl hr
    exact ⟨rfl, by simpa [Double.size, Double.zero] using hr⟩
  unfold toDouble? Double.ofDecimal? at h
  split_ifs at h with hdigits hhuge htiny
  · refine hzero (Option.some.inj h) ?_
    simpa [size, hdigits] using Rounds.zero
  · refine hzero (Option.some.inj h) (Rounds.zero_of_lt n.size_nonneg (n.size_lt.trans ?_))
    calc
      (10 : ℚ) ^ (n.exponent + (Nat.log2 n.digits / 3 + 1 : ℕ)) ≤ 10 ^ (10 * -33 : ℤ) :=
        zpow_le_zpow_right₀ (by norm_num) htiny.le
      _ = ((10 ^ 10 : ℚ) ^ 33)⁻¹ := by rw [zpow_mul, zpow_neg]; norm_cast
      _ < ((2 ^ 33 : ℚ) ^ 33)⁻¹ := by gcongr; norm_num
      _ = 2 ^ (33 * -33 : ℤ) := by rw [zpow_mul, zpow_neg]; norm_cast
      _ ≤ 2 ^ (-1075 : ℤ) := zpow_le_zpow_right₀ one_le_two (by norm_num)
  · rw [size_eq]
    exact Double.rounds_of_ofRatio? (Nat.pow_pos (by norm_num)) h

/-- Nearest floating-point numbers are in the order of the numerals. -/
theorem toDouble?_mono {m n : Numeral} {x y : Double} (hx : m.toDouble? = some x)
    (hy : n.toDouble? = some y) (h : m.value ≤ n.value) : x.value ≤ y.value := by
  obtain ⟨hsx, hrx⟩ := rounds_of_toDouble? hx
  obtain ⟨hsy, hry⟩ := rounds_of_toDouble? hy
  have hm := m.size_nonneg
  have hn := n.size_nonneg
  have hpx := hrx.nonneg
  have hpy := hry.nonneg
  unfold value at h
  unfold Double.value
  rw [hsx, hsy]
  cases hnm : m.negative <;> cases hnn : n.negative <;>
    simp only [hnm, hnn, signFactor_true, signFactor_false, neg_mul, one_mul] at h ⊢
  · exact hrx.mono hry h
  · -- Only zero is both at least zero and at most zero.
    rw [show m.size = 0 by linarith] at hrx
    rw [show n.size = 0 by linarith] at hry
    rw [hrx.eq_zero, hry.eq_zero, neg_zero]
  · linarith
  · exact neg_le_neg (hry.mono hrx (by linarith))

/-- A number that is not huge has a nearest floating-point number. -/
theorem isSome_toDouble? {n : Numeral} (h : n.size < 10 ^ 240) : n.toDouble?.isSome := by
  unfold toDouble? Double.ofDecimal?
  split_ifs with hdigits hhuge htiny
  · rfl
  · have hone : (1 : ℚ) ≤ n.digits := by exact_mod_cast Nat.one_le_iff_ne_zero.2 hdigits
    have hpow : (10 : ℚ) ^ (240 : ℤ) ≤ 10 ^ n.exponent :=
      zpow_le_zpow_right₀ (by norm_num) (by omega)
    have hle : (10 : ℚ) ^ n.exponent ≤ n.size := le_mul_of_one_le_left (by positivity) hone
    exact absurd h (not_lt.2 ((by exact_mod_cast hpow : (10 : ℚ) ^ 240 ≤ _).trans hle))
  · rfl
  · refine Double.isSome_ofRatio? _ (Nat.pow_pos (by norm_num)) ?_
    rw [← size_eq]
    calc
      n.size < 10 ^ 240 := h
      _ = ((10 : ℚ) ^ 3) ^ 80 := by rw [← pow_mul]
      _ ≤ ((2 : ℚ) ^ 10) ^ 80 := by gcongr; norm_num
      _ ≤ ((2 : ℚ) ^ 10) ^ 100 := pow_le_pow_right₀ (by norm_num) (by norm_num)
      _ = 2 ^ 1000 := by rw [← pow_mul]

theorem size_of_value {n : Numeral} {i : ℤ} (h : n.value = i) : n.size = (i.natAbs : ℚ) := by
  have habs := congrArg abs h
  rw [value, abs_mul, abs_of_nonneg n.size_nonneg] at habs
  rw [Nat.cast_natAbs, Int.cast_abs, ← habs]
  cases n.negative <;> simp

/-- A whole number of 53 binary places has itself as its nearest floating-point number. -/
theorem toDouble?_of_whole {n : Numeral} {i : ℤ} (h : n.value = i) (hi : |i| < 2 ^ 53) :
    ∃ x, n.toDouble? = some x ∧ x.value = i := by
  have hlt : i.natAbs < 2 ^ 53 := by zify; exact hi
  have hlt' : n.size < 2 ^ 53 := by rw [size_of_value h]; exact_mod_cast hlt
  obtain ⟨x, hx⟩ := Option.isSome_iff_exists.1
    (isSome_toDouble? (hlt'.trans (by norm_num : (2 : ℚ) ^ 53 < 10 ^ 240)))
  refine ⟨x, hx, ?_⟩
  obtain ⟨hs, hr⟩ := rounds_of_toDouble? hx
  have hexact : x.size = n.size := by
    have hr' : Rounds ((i.natAbs : ℚ) * 2 ^ (0 : ℤ)) x.size := by
      rwa [zpow_zero, mul_one, ← size_of_value h]
    rw [hr'.exact hlt (by norm_num), zpow_zero, mul_one, size_of_value h]
  rw [Double.value, hs, hexact, ← value, h]

end Numeral

end Crosswalk
