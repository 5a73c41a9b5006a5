import Crosswalk.Validation.Check
import Mathlib.Data.List.Forall2
import Mathlib.Order.Compare
import Mathlib.Tactic.Ring

/-!
# Values that are alike

A check looks at the value of a number only. So a bound, a factor or a literal may be exchanged for
a number that is alike, and no value is judged differently. Values that are alike differ in the
writing of numbers at most. They equal the same values.
-/

namespace Crosswalk

/-! ### Numbers by value -/

namespace Number

open Check

/-- The numbers have the same value. -/
def IsEqual (a b : Number) : Prop := (ratioOf a).1 * (ratioOf b).2 = (ratioOf b).1 * (ratioOf a).2

theorem ratioOf_pos (a : Number) : 0 < ((ratioOf a).2 : Int) := by
  cases a with
  | int n => exact Int.one_pos
  | float x => exact Int.natCast_pos.2 (Nat.pow_pos (by decide))

theorem compare_eq (a b : Number) :
    a.compare b =
      Ord.compare ((ratioOf a).1 * (ratioOf b).2) ((ratioOf b).1 * (ratioOf a).2) := by
  cases a with
  | int m =>
      cases b with
      | int n => simp [compare, ratioOf]
      | float y =>
          change (Ord.compare _ _).swap = _
          rw [← Std.OrientedOrd.eq_swap]
          simp [ratioOf]
  | float x =>
      cases b with
      | int n => simp [compare, ratioOf, Double.compareInt]
      | float y => rfl

theorem isEqual_of_alike {a b : Number} (h : a.alike b = true) : IsEqual a b := by
  have heq : a.compare b = .eq := by
    cases a <;> cases b <;> simp_all [alike, compare]
  rw [compare_eq] at heq
  exact compare_eq_iff_eq.1 heq

theorem compare_mul (m n : Int) {k : Int} (hk : 0 < k) :
    Ord.compare (m * k) (n * k) = Ord.compare m n := by
  rcases lt_trichotomy m n with h | h | h
  · rw [compare_lt_iff_lt.2 h, compare_lt_iff_lt.2 (Int.mul_lt_mul_of_pos_right h hk)]
  · rw [h, compare_eq_iff_eq.2 rfl, compare_eq_iff_eq.2 rfl]
  · rw [compare_gt_iff_gt.2 h, compare_gt_iff_gt.2 (Int.mul_lt_mul_of_pos_right h hk)]

variable {a b : Number} (h : IsEqual a b) (c : Number)
include h

theorem IsEqual.compare_left : a.compare c = b.compare c := by
  unfold IsEqual at h
  rw [compare_eq, compare_eq, ← compare_mul _ _ (ratioOf_pos b),
    ← compare_mul ((ratioOf b).1 * _) _ (ratioOf_pos a)]
  congr 1
  · calc
      (ratioOf a).1 * (ratioOf c).2 * (ratioOf b).2 =
          (ratioOf a).1 * (ratioOf b).2 * (ratioOf c).2 := by ring
      _ = (ratioOf b).1 * (ratioOf c).2 * (ratioOf a).2 := by rw [h]; ring
  · ring

theorem IsEqual.compare_right : c.compare a = c.compare b := by
  unfold IsEqual at h
  rw [compare_eq, compare_eq, ← compare_mul _ _ (ratioOf_pos b),
    ← compare_mul _ ((ratioOf b).1 * _) (ratioOf_pos a)]
  congr 1
  · ring
  · calc
      (ratioOf a).1 * (ratioOf c).2 * (ratioOf b).2 =
          (ratioOf a).1 * (ratioOf b).2 * (ratioOf c).2 := by ring
      _ = (ratioOf b).1 * (ratioOf c).2 * (ratioOf a).2 := by rw [h]; ring

/-- Multiples are judged by the value of the factor. -/
theorem IsEqual.isMultiple_right : isMultiple c a = isMultiple c b := by
  have hdvd : ∀ {x y : Number}, IsEqual x y →
      (ratioOf x).1 * (ratioOf c).2 ∣ (ratioOf c).1 * (ratioOf x).2 →
      (ratioOf y).1 * (ratioOf c).2 ∣ (ratioOf c).1 * (ratioOf y).2 := by
    intro x y hxy hx
    unfold IsEqual at hxy
    refine Int.dvd_of_mul_dvd_mul_right (ratioOf_pos x).ne' ?_
    obtain ⟨k, hk⟩ := hx
    refine ⟨k, ?_⟩
    calc
      (ratioOf c).1 * (ratioOf y).2 * (ratioOf x).2 =
          (ratioOf c).1 * (ratioOf x).2 * (ratioOf y).2 := by ring
      _ = (ratioOf x).1 * (ratioOf y).2 * (ratioOf c).2 * k := by rw [hk]; ring
      _ = (ratioOf y).1 * (ratioOf c).2 * (ratioOf x).2 * k := by rw [hxy]; ring
  have hmultiple : ∀ x : Number, isMultiple c x = true ↔
      (ratioOf x).1 * (ratioOf c).2 ∣ (ratioOf c).1 * (ratioOf x).2 := by
    intro x
    rw [Int.dvd_iff_emod_eq_zero]
    exact beq_iff_eq
  rw [Bool.eq_iff_iff, hmultiple, hmultiple]
  exact ⟨hdvd h, hdvd h.symm⟩

end Number

/-! ### Values -/

namespace Json

mutual

theorem alike_refl : ∀ a : Json, a.alike a = true
  | .null => rfl
  | .bool b => beq_self_eq_true b
  | .number (.int n) => beq_self_eq_true n
  | .number (.float x) => by
      change ((Number.float x).compare (.float x) == .eq) = true
      rw [Number.compare_eq]
      simp
  | .string s => beq_self_eq_true s
  | .array items => alikeItems_refl items
  | .object fields => alikeFields_refl fields

theorem alikeItems_refl : ∀ items : List Json,
    agree.agreeItems Number.alike items items = true
  | [] => rfl
  | a :: rest => by
      rw [agree.agreeItems, Bool.and_eq_true]
      exact ⟨alike_refl a, alikeItems_refl rest⟩

theorem alikeFields_refl : ∀ fields : List (String × Json),
    agree.agreeFields Number.alike fields fields = true
  | [] => rfl
  | (k, a) :: rest => by
      rw [agree.agreeFields, Bool.and_eq_true, Bool.and_eq_true]
      exact ⟨⟨beq_self_eq_true k, alike_refl a⟩, alikeFields_refl rest⟩

end

section

variable {numbers : Number → Number → Bool}

mutual

theorem agree_flip : ∀ a b : Json, agree (fun m n => numbers n m) a b = agree numbers b a
  | .null, b => by cases b <;> rfl
  | .bool x, b => by
      cases b <;> first | rfl | exact Bool.beq_comm
  | .number m, b => by cases b <;> rfl
  | .string s, b => by
      cases b <;> first | rfl | exact Bool.beq_comm
  | .array items, b => by
      cases b <;> first | rfl | exact agreeItems_flip items _
  | .object fields, b => by
      cases b <;> first | rfl | exact agreeFields_flip fields _

theorem agreeItems_flip : ∀ as bs : List Json,
    agree.agreeItems (fun m n => numbers n m) as bs = agree.agreeItems numbers bs as
  | [], bs => by cases bs <;> rfl
  | a :: as, [] => rfl
  | a :: as, b :: bs => by
      rw [agree.agreeItems, agree.agreeItems, agree_flip a b, agreeItems_flip as bs]

theorem agreeFields_flip : ∀ as bs : List (String × Json),
    agree.agreeFields (fun m n => numbers n m) as bs = agree.agreeFields numbers bs as
  | [], bs => by cases bs <;> rfl
  | _ :: _, [] => rfl
  | (k, a) :: as, (l, b) :: bs => by
      rw [agree.agreeFields, agree.agreeFields, agree_flip a b, agreeFields_flip as bs,
        Bool.beq_comm]

end

mutual

theorem agree_congr
    (hn : ∀ m n p : Number, m.alike n = true → numbers m p = numbers n p) :
    ∀ {a b : Json}, a.alike b = true → ∀ c : Json,
    agree numbers a c = agree numbers b c
  | .null, b, h, c => by
      cases b with
      | null => rfl
      | _ => exact nomatch h
  | .bool x, b, h, c => by
      cases b with
      | bool y => rw [show x = y from eq_of_beq h]
      | _ => exact nomatch h
  | .number m, b, h, c => by
      cases b with
      | number n =>
          cases c with
          | number p => exact hn m n p h
          | _ => rfl
      | _ => exact nomatch h
  | .string s, b, h, c => by
      cases b with
      | string t => rw [show s = t from eq_of_beq h]
      | _ => exact nomatch h
  | .array as, b, h, c => by
      cases b with
      | array bs =>
          cases c with
          | array cs => exact agreeItems_congr hn h cs
          | _ => rfl
      | _ => exact nomatch h
  | .object as, b, h, c => by
      cases b with
      | object bs =>
          cases c with
          | object cs => exact agreeFields_congr hn h cs
          | _ => rfl
      | _ => exact nomatch h

theorem agreeItems_congr
    (hn : ∀ m n p : Number, m.alike n = true → numbers m p = numbers n p) :
    ∀ {as bs : List Json},
    agree.agreeItems Number.alike as bs = true → ∀ cs : List Json,
      agree.agreeItems numbers as cs = agree.agreeItems numbers bs cs
  | [], [], _, _ => rfl
  | [], b :: bs, h, _ => absurd h (by simp [agree.agreeItems])
  | a :: as, [], h, _ => absurd h (by simp [agree.agreeItems])
  | a :: as, b :: bs, h, [] => rfl
  | a :: as, b :: bs, h, c :: cs => by
      rw [agree.agreeItems, Bool.and_eq_true] at h
      rw [agree.agreeItems, agree.agreeItems, agree_congr hn h.1 c,
        agreeItems_congr hn h.2 cs]

theorem agreeFields_congr
    (hn : ∀ m n p : Number, m.alike n = true → numbers m p = numbers n p) :
    ∀ {as bs : List (String × Json)},
    agree.agreeFields Number.alike as bs = true → ∀ cs : List (String × Json),
      agree.agreeFields numbers as cs = agree.agreeFields numbers bs cs
  | [], [], _, _ => rfl
  | [], b :: bs, h, _ => absurd h (by simp [agree.agreeFields])
  | a :: as, [], h, _ => absurd h (by simp [agree.agreeFields])
  | _ :: as, _ :: bs, h, [] => rfl
  | (k, a) :: as, (l, b) :: bs, h, (m, c) :: cs => by
      rw [agree.agreeFields, Bool.and_eq_true, Bool.and_eq_true, beq_iff_eq] at h
      rw [agree.agreeFields, agree.agreeFields, agree_congr hn h.1.2 c,
        agreeFields_congr hn h.2 cs, h.1.1]

end

end

section

variable {a b : Json} (h : a.alike b = true)
include h

theorem string?_alike : a.string? = b.string? := by
  cases a <;> cases b <;> first | rfl | exact absurd h Bool.false_ne_true | skip
  next s t => rw [show s = t from eq_of_beq h]

theorem bool?_alike : a.bool? = b.bool? := by
  cases a <;> cases b <;> first | rfl | exact absurd h Bool.false_ne_true | skip
  next x y => rw [show x = y from eq_of_beq h]

variable (c : Json)

theorem same_left_of_alike : a.same c = b.same c :=
  agree_congr (fun m n p hmn => by
    rw [Number.same, Number.same, (Number.isEqual_of_alike hmn).compare_left]) h c

theorem same_right_of_alike : c.same a = c.same b := by
  rw [same, ← agree_flip, ← agree_flip (a := b)]
  exact agree_congr (fun m n p hmn => by
    rw [Number.same, Number.same, (Number.isEqual_of_alike hmn).compare_right]) h c

end

theorem forall₂_items : ∀ {items others : List Json},
    agree.agreeItems Number.alike items others = true →
      List.Forall₂ (fun item other => item.alike other = true) items others
  | [], [], _ => .nil
  | [], _ :: _, h => absurd h Bool.false_ne_true
  | _ :: _, [], h => absurd h Bool.false_ne_true
  | _ :: _, _ :: _, h => by
      rw [agree.agreeItems, Bool.and_eq_true] at h
      exact .cons h.1 (forall₂_items h.2)

theorem forall₂_fields : ∀ {fields others : List (String × Json)},
    agree.agreeFields Number.alike fields others = true →
      List.Forall₂ (fun member other => member.2.alike other.2 = true) fields others
  | [], [], _ => .nil
  | [], _ :: _, h => absurd h Bool.false_ne_true
  | _ :: _, [], h => absurd h Bool.false_ne_true
  | _ :: _, _ :: _, h => by
      rw [agree.agreeFields, Bool.and_eq_true, Bool.and_eq_true] at h
      exact .cons h.1.2 (forall₂_fields h.2)

/-- What is read off each of two lists whose items are alike in pairs. -/
theorem filterMap_alike {β : Type} {part : Json → Option β}
    (hpart : ∀ {a b : Json}, a.alike b = true → part a = part b) {items others : List Json}
    (h : List.Forall₂ (fun item other => item.alike other = true) items others) :
    items.filterMap part = others.filterMap part := by
  induction h with
  | nil => rfl
  | cons hab _ ih => rw [List.filterMap_cons, List.filterMap_cons, hpart hab, ih]

end Json

end Crosswalk
