import Crosswalk.Proofs.Facet.Aspect
import Crosswalk.Proofs.Number.Lexical
import Mathlib.Algebra.Order.Field.Basic

/-!
# Facets about numbers

A bound is written as a decimal, and compared as the nearest floating-point number.
`Bound.Reads b v` says that `v` is the exact decimal. Since rounding keeps the order, a bound that
lies within another one admits nothing more, unless the two decimals have one nearest floating-point
number (`Bound.inside_of_within`). With that comparison each end of the range is an aspect
(`Aspect.isLawful_bound`). `Facet.numberFacet?` is what a facet says of numbers, and
`NumberFacet.Admits` is meant exactly.
-/

namespace Crosswalk

/-- The number lies on the inner side of an end of a range. -/
def Inside (lower exclusive : Bool) (limit q : ℚ) : Prop :=
  match lower, exclusive with
  | true, false => limit ≤ q
  | true, true => limit < q
  | false, false => q ≤ limit
  | false, true => q < limit

/-- The end `v` of a range lies further in than `w`. -/
def Deeper (lower : Bool) (v w : ℚ) : Prop := if lower then w < v else v < w

/-- The two are on the same side of the number. -/
def SameSide (q v w : ℚ) : Prop := (q < v ↔ q < w) ∧ (v < q ↔ w < q)

theorem SameSide.rfl {q v : ℚ} : SameSide q v v := ⟨Iff.rfl, Iff.rfl⟩

theorem Inside.of_deeper {lower e e' : Bool} {v w q : ℚ} (h : Inside lower e v q)
    (hd : Deeper lower v w) : Inside lower e' w q := by
  cases lower <;> cases e <;> cases e' <;> simp only [Inside, Deeper] at * <;> grind

theorem Inside.of_sameSide {lower e e' : Bool} {v w q : ℚ} (h : Inside lower e v q)
    (hs : SameSide q v w) (he : e = true ∨ e' = false) : Inside lower e' w q := by
  cases lower <;> cases e <;> cases e' <;> simp only [Inside, SameSide] at * <;> grind

namespace Bound

/-- The decimal that the bound is written as. -/
def Reads (b : Bound) (v : ℚ) : Prop :=
  ∃ n, Numeral.ofText? b.lexical = some n ∧ n.toDouble? = some b.value ∧ n.value = v

variable {a b : Bound} {v w : ℚ} {lower : Bool}

theorem Reads.valueOf? (h : b.Reads v) : Numeral.valueOf? b.lexical = some v := by
  obtain ⟨n, hn, -, rfl⟩ := h
  exact Option.map_eq_some_iff.2 ⟨n, hn, rfl⟩

/-- A bound that is read. -/
theorem of_ofText? {text : String} {exclusive : Bool} (h : ofText? text exclusive = some b) :
    b.lexical = Text.trim text ∧ b.exclusive = exclusive ∧
      ∃ v, Numeral.valueOf? text = some v ∧ b.Reads v := by
  obtain ⟨x, hx, rfl⟩ := Option.map_eq_some_iff.1 h
  obtain ⟨n, hn, hx⟩ := Option.bind_eq_some_iff.1 hx
  exact ⟨rfl, rfl, n.value, Option.map_eq_some_iff.2 ⟨n, hn, rfl⟩, n,
    (Numeral.ofText?_trim text).trans hn, hx, rfl⟩

/-- Rounding keeps the order, so that the decimals are in that of the rounded numbers. -/
theorem deeper_of_reads (ha : a.Reads v) (hb : b.Reads w)
    (h : Deeper lower a.value.value b.value.value) : Deeper lower v w := by
  obtain ⟨m, -, hm, rfl⟩ := ha
  obtain ⟨n, -, hn, rfl⟩ := hb
  unfold Deeper at *
  split_ifs at * <;> by_contra hle
  · exact absurd (Numeral.toDouble?_mono hm hn (not_lt.1 hle)) (not_le.2 h)
  · exact absurd (Numeral.toDouble?_mono hn hm (not_lt.1 hle)) (not_le.2 h)

theorem within_iff : FacetSet.boundWithin lower a b = true ↔
    Deeper lower a.value.value b.value.value ∨
      a.value.value = b.value.value ∧ (a.exclusive = true ∨ b.exclusive = false) := by
  unfold FacetSet.boundWithin lowerWithin upperWithin Deeper
  rw [Double.compare_eq]
  rcases lt_trichotomy a.value.value b.value.value with h | h | h
  · rw [compare_lt_iff_lt.2 h]
    cases lower <;> simp [h, h.not_gt, h.ne]
  · rw [compare_eq_iff_eq.2 h]
    cases lower <;> simp [h]
  · rw [compare_gt_iff_gt.2 h]
    cases lower <;> simp [h, h.not_gt, h.ne']

/-- A bound within another one admits only what that one admits, except for what lies between two
decimals that are rounded to one number. -/
theorem inside_of_within {q : ℚ} (ha : a.Reads v) (hb : b.Reads w)
    (h : FacetSet.boundWithin lower a b = true)
    (htold : a.value.value = b.value.value → SameSide q v w)
    (hq : Inside lower a.exclusive v q) : Inside lower b.exclusive w q := by
  rcases within_iff.1 h with hdeeper | ⟨heq, he⟩
  · exact hq.of_deeper (deeper_of_reads ha hb hdeeper)
  · exact hq.of_sameSide (htold heq) he

/-- A bound that an exclusive one does not lie within lies further in. -/
theorem deeper_of_not_within (ha : a.Reads v) (hb : b.Reads w) (he : b.exclusive = true)
    (h : FacetSet.boundWithin lower b a = false) : Deeper lower v w := by
  have hnot := mt within_iff.2 (Bool.not_eq_true _ ▸ h)
  rw [not_or, he] at hnot
  refine deeper_of_reads ha hb ?_
  have hne : b.value.value ≠ a.value.value := fun heq => hnot.2 ⟨heq, .inl rfl⟩
  cases lower
  · exact lt_of_le_of_ne (not_lt.1 hnot.1) hne.symm
  · exact lt_of_le_of_ne (not_lt.1 hnot.1) hne

end Bound

namespace Aspect

theorem isOrder_boundWithin (lower : Bool) : IsOrder (FacetSet.boundWithin lower) where
  total a b := by
    rw [Bound.within_iff, Bound.within_iff]
    rcases lt_trichotomy a.value.value b.value.value with h | h | h <;>
      cases lower <;> cases a.exclusive <;> simp [Deeper, h]
  trans a b c := by
    simp only [Bound.within_iff, Deeper]
    cases lower <;> grind

/-- One end of the range. -/
def bound (lower : Bool) : Aspect Bound :=
  ⟨fun s => if lower then s.lower else s.upper, Facet.bound? lower, FacetSet.boundWithin lower⟩

theorem isLawful_bound (lower : Bool) : (bound lower).IsLawful where
  order := isOrder_boundWithin lower
  add space step f := by rw [FacetStep.facets_add]; cases lower <;> rfl
  close _ _ _ := rfl

end Aspect

/-! ### What facets say of numbers -/

/-- What a facet says of numbers. -/
inductive NumberFacet where
  /-- An end of the range, and whether it lies outside. -/
  | bound (lower exclusive : Bool) (limit : ℚ)
  | totalDigits (count : ℕ)
  | fractionDigits (count : ℕ)

/-- The number is admitted: it lies inside of the bound, it is `i * 10 ^ -n` where `i` has no more
digits than allowed, and `n` neither, or it has no more digits than allowed behind the point. -/
def NumberFacet.Admits : NumberFacet → ℚ → Prop
  | bound lower exclusive limit, q => Inside lower exclusive limit q
  | totalDigits count, q => ∃ (i : ℤ) (n : ℕ), q = i / 10 ^ n ∧ |i| < 10 ^ count ∧ n ≤ count
  | fractionDigits count, q => ∃ i : ℤ, q = i / 10 ^ count

theorem NumberFacet.abs_lt_of_totalDigits {count : ℕ} {q : ℚ} (h : (totalDigits count).Admits q) :
    |q| < 10 ^ count := by
  obtain ⟨i, n, rfl, hi, -⟩ := h
  have hlt : |(i : ℚ)| < 10 ^ count := by exact_mod_cast hi
  have hone : (1 : ℚ) ≤ 10 ^ n := one_le_pow₀ (by norm_num)
  rw [abs_div, abs_of_pos (by positivity : (0 : ℚ) < 10 ^ n)]
  exact (div_le_self (abs_nonneg _) hone).trans_lt hlt

theorem NumberFacet.totalDigits_admits_int {count : ℕ} {i : ℤ} (h : |i| < 10 ^ count) :
    (totalDigits count).Admits i := ⟨i, 0, by simp, h, Nat.zero_le _⟩

namespace Facet

/-- What the facet says of numbers. -/
def numberFacet? (f : Facet) : Option NumberFacet :=
  match f.kind with
  | .minInclusive => (Numeral.valueOf? f.value).map (.bound true false)
  | .minExclusive => (Numeral.valueOf? f.value).map (.bound true true)
  | .maxInclusive => (Numeral.valueOf? f.value).map (.bound false false)
  | .maxExclusive => (Numeral.valueOf? f.value).map (.bound false true)
  | .totalDigits => (Numeral.word? f.value).map .totalDigits
  | .fractionDigits => (Numeral.word? f.value).map .fractionDigits
  | _ => none

variable {f : Facet} {space : ValueSpace}

theorem numberFacet?_of_boundKind? {lower exclusive : Bool}
    (h : boundKind? lower f.kind = some exclusive) :
    f.numberFacet? = (Numeral.valueOf? f.value).map (.bound lower exclusive) := by
  obtain ⟨kind, value⟩ := f
  cases kind <;> cases lower <;> simp_all [boundKind?, numberFacet?]

/-- A bound that a facet states has the value that the facet gives. -/
theorem numberFacet?_of_bound? {lower : Bool} {b : Bound} (h : f.bound? lower space = some b) :
    ∃ v, f.numberFacet? = some (.bound lower b.exclusive v) ∧ b.Reads v ∧
      b.lexical = Text.trim f.value := by
  obtain ⟨-, h⟩ := Option.ite_none_right_eq_some.1 h
  obtain ⟨exclusive, hkind, h⟩ := Option.bind_eq_some_iff.1 h
  obtain ⟨hlexical, rfl, v, hv, hreads⟩ := Bound.of_ofText? h
  exact ⟨v, by rw [numberFacet?_of_boundKind? hkind, hv]; rfl, hreads, hlexical⟩

theorem kind_of_totalDigits {n : ℕ} (h : f.numberFacet? = some (.totalDigits n)) :
    f.kind = .totalDigits := by
  obtain ⟨kind, value⟩ := f
  cases kind <;> simp_all [numberFacet?]

theorem numberFacet?_of_totalDigits? {n : ℕ} (h : f.totalDigits? space = some n) :
    f.numberFacet? = some (.totalDigits n) := by
  obtain ⟨hkind, h⟩ := of_stated? h
  rw [numberFacet?, List.mem_singleton.1 hkind]
  exact congrArg (Option.map NumberFacet.totalDigits) (Option.filter_eq_some_iff.1 h).1

theorem numberFacet?_of_fractionDigits? {n : ℕ} (h : f.fractionDigits? space = some n) :
    f.numberFacet? = some (.fractionDigits n) := by
  obtain ⟨hkind, h⟩ := of_stated? h
  rw [numberFacet?, List.mem_singleton.1 hkind]
  exact congrArg (Option.map NumberFacet.fractionDigits) (Option.filter_eq_some_iff.1 h).1

end Facet

namespace Datatype

/-- The end of the range that comes with the datatype. -/
def limit? (d : Datatype) (lower : Bool) : Option String := if lower then d.least else d.greatest

theorem limit?_of_get {d : Datatype} {lower : Bool} {b : Bound}
    (h : (Aspect.bound lower).get (.ofDatatype d) = some b) :
    ∃ text, d.limit? lower = some text ∧ Bound.ofText? text false = some b := by
  cases lower <;> exact Option.bind_eq_some_iff.1 h

end Datatype

end Crosswalk
