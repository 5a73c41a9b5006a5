/-!
# Occurrence bounds

How often a term may occur: a count, and a limit that is a count or absent. Counts do not exceed
`2 ^ 64 - 1`; sums and products beyond it stay there. The limits are ordered with the absent one
last.
-/

namespace Crosswalk

/-- A number of occurrences. -/
structure Count where
  toNat : Nat
  le_greatest : toNat ≤ 18446744073709551615 := by omega
  deriving DecidableEq

namespace Count

/-- The greatest count. -/
def greatest : Nat := 18446744073709551615

/-- The count nearest to a number. -/
def ofNat (n : Nat) : Count := ⟨min n greatest, Nat.min_le_right _ _⟩

@[simp] theorem toNat_ofNat (n : Nat) : (ofNat n).toNat = min n greatest := rfl

theorem ext_toNat {a b : Count} (h : a.toNat = b.toNat) : a = b := by
  cases a; cases b; simp_all

@[simp] theorem ofNat_toNat (a : Count) : ofNat a.toNat = a :=
  ext_toNat (Nat.min_eq_left a.le_greatest)

/-- No occurrence. -/
def zero : Count := ⟨0, by omega⟩

/-- One occurrence. -/
def one : Count := ⟨1, by omega⟩

@[simp] theorem toNat_zero : zero.toNat = 0 := rfl

@[simp] theorem toNat_one : one.toNat = 1 := rfl

/-- Occurrences of one kind after those of another. -/
def plus (a b : Count) : Count := ofNat (a.toNat + b.toNat)

/-- Occurrences of a term in something that itself occurs. -/
def times (a b : Count) : Count := ofNat (a.toNat * b.toNat)

theorem toNat_plus (a b : Count) : (a.plus b).toNat = min (a.toNat + b.toNat) greatest := rfl

theorem toNat_times (a b : Count) : (a.times b).toNat = min (a.toNat * b.toNat) greatest := rfl

/-- The lesser of two counts. -/
def least (a b : Count) : Count := if b.toNat < a.toNat then b else a

end Count

/-- An upper bound of occurrences. -/
inductive Limit where
  | bounded (count : Count)
  | unbounded
  deriving DecidableEq

namespace Limit

/-- At most one occurrence. -/
def one : Limit := .bounded .one

/-- No occurrence at all. -/
def zero : Limit := .bounded .zero

/-- The limit of a term in something that has a limit itself. -/
def times : Limit → Limit → Limit
  | .bounded a, .bounded b => .bounded (a.times b)
  | .bounded a, .unbounded => if a.toNat = 0 then zero else .unbounded
  | .unbounded, .bounded b => if b.toNat = 0 then zero else .unbounded
  | .unbounded, .unbounded => .unbounded

/-- The limit of occurrences in two places. -/
def plus : Limit → Limit → Limit
  | .bounded a, .bounded b => .bounded (a.plus b)
  | _, _ => .unbounded

/-- The order of limits, the absent one last. -/
protected def le : Limit → Limit → Bool
  | .bounded a, .bounded b => decide (a.toNat ≤ b.toNat)
  | _, .unbounded => true
  | .unbounded, .bounded _ => false

instance : LE Limit := ⟨fun a b => a.le b = true⟩

instance (a b : Limit) : Decidable (a ≤ b) := inferInstanceAs (Decidable (a.le b = true))

/-- The greater of two limits. -/
def greater (a b : Limit) : Limit := if a ≤ b then b else a

/-- The lesser of two limits. -/
def lesser (a b : Limit) : Limit := if a ≤ b then a else b

/-- Whether more than one occurrence is admitted. -/
def isRepeated : Limit → Bool
  | .bounded a => 1 < a.toNat
  | .unbounded => true

end Limit

/-- How often something occurs, at least and at most. -/
structure Bounds where
  least : Count
  most : Limit
  deriving DecidableEq

namespace Bounds

/-- Exactly one occurrence. -/
def once : Bounds := ⟨.one, .one⟩

/-- At most one occurrence. -/
def optional : Bounds := ⟨.zero, .one⟩

/-- The bounds of something within something else that occurs itself. -/
def times (a b : Bounds) : Bounds := ⟨a.least.times b.least, a.most.times b.most⟩

/-- The bounds of occurrences in two places, both of which count. -/
def plus (a b : Bounds) : Bounds := ⟨a.least.plus b.least, a.most.plus b.most⟩

/-- The bounds of occurrences in one of two places. -/
def either (a b : Bounds) : Bounds := ⟨a.least.least b.least, a.most.greater b.most⟩

/-- The bounds that admit none as well. -/
def orNone (a : Bounds) : Bounds := { a with least := .zero }

/-- Whether there has to be an occurrence. -/
def isRequired (a : Bounds) : Bool := 0 < a.least.toNat

end Bounds

end Crosswalk
