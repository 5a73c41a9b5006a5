import Crosswalk.Proofs.Facet.Bound

/-!
# A step only narrows

What a facet set admits is said of exact values (`FacetSet.Admits`): of a text with its length, of
a rational number and of a truth value. A step never admits what was not admitted before, however
many of its facets are reported (`FacetSet.admits_of_apply`). Two decimals that have one nearest
floating-point number are one to the comparisons of a step; that the step has no such decimals
beside those in effect is asked for, and holds of whole numbers of 53 binary places
(`Numeral.toldApart_of_whole`).
-/

namespace Crosswalk

/-- A value that facets judge. -/
inductive Datum where
  /-- Character data, with the number of its characters, or of its items if it is a list. -/
  | text (length : ℕ) (content : String)
  | number (q : ℚ)
  | truth (b : Bool)

namespace Numeral

/-- The literals are one number if they are rounded to one. -/
def ToldApart (a b : String) : Prop :=
  ∀ m n x y, ofText? a = some m → ofText? b = some n → m.toDouble? = some x →
    n.toDouble? = some y → x.value = y.value → m.value = n.value

theorem toldApart_of_whole {a b : String} {i j : ℤ} (ha : valueOf? a = some (i : ℚ))
    (hb : valueOf? b = some (j : ℚ)) (hi : |i| < 2 ^ 53) (hj : |j| < 2 ^ 53) : ToldApart a b := by
  intro m n x y hm hn hx hy heq
  have hmi : m.value = i := by simpa [valueOf?, hm] using ha
  have hnj : n.value = j := by simpa [valueOf?, hn] using hb
  obtain ⟨x', hx', hxi⟩ := toDouble?_of_whole hmi hi
  obtain ⟨y', hy', hyj⟩ := toDouble?_of_whole hnj hj
  obtain rfl := Option.some.inj (hx.symm.trans hx')
  obtain rfl := Option.some.inj (hy.symm.trans hy')
  rw [hmi, hnj, ← hxi, ← hyj, heq]

end Numeral

namespace ValueSpace

/-- The literal is one of the value in the space. -/
def Denotes (space : ValueSpace) (literal : String) : Datum → Prop
  | .text _ content => space.isNumeric = false ∧ space ≠ .boolean ∧ content = literal
  | .number q => space.isNumeric = true ∧ Numeral.valueOf? literal = some q
  | .truth b => space = .boolean ∧ truthValue? literal = some b

/-- Two literals of which the program says that they are one value are one. -/
theorem Denotes.of_sameValue {space : ValueSpace} {a b : String} {x : Datum}
    (h : space.Denotes b x) (hsame : space.sameValue a b = true)
    (htold : space.isNumeric = true → Numeral.ToldApart a b) : space.Denotes a x := by
  unfold sameValue at hsame
  cases x with
  | text length content =>
      obtain ⟨hnumeric, hboolean, rfl⟩ := h
      rw [if_neg (by simp [hnumeric]), if_neg hboolean] at hsame
      exact ⟨hnumeric, hboolean, (beq_iff_eq.1 hsame).symm⟩
  | number q =>
      obtain ⟨hnumeric, hq⟩ := h
      refine ⟨hnumeric, ?_⟩
      rw [if_pos hnumeric] at hsame
      dsimp only at hsame
      split at hsame
      · next x y hx hy =>
          obtain ⟨m, hm, hx⟩ := Option.bind_eq_some_iff.1 hx
          obtain ⟨n, hn, hy⟩ := Option.bind_eq_some_iff.1 hy
          rw [Double.compare_eq, beq_iff_eq, compare_eq_iff_eq] at hsame
          have heq := htold hnumeric m n x y hm hn hx hy hsame
          simpa [Numeral.valueOf?, hm, hn, heq] using hq
      · rw [← Numeral.valueOf?_trim, beq_iff_eq.1 hsame, Numeral.valueOf?_trim, hq]
  | truth t =>
      obtain ⟨rfl, ht⟩ := h
      refine ⟨rfl, ?_⟩
      rw [if_neg (by decide), if_pos rfl, ht] at hsame
      split at hsame
      · next x y hx hy => rw [hx, beq_iff_eq.1 hsame, hy]
      · next hy => cases hy
      · cases hsame

end ValueSpace

namespace FacetSet

/-- The value is one of those listed, if any are. -/
def Lists (s : FacetSet) (space : ValueSpace) (x : Datum) : Prop :=
  ∀ values, s.enumeration = some values → ∃ v ∈ values, space.Denotes v x

/-- The facets in effect admit the value. Texts have a length and match all expressions, whatever
matching is, and a number lies between the decimals that the ends of the range are written as. -/
def Admits (matching : String → String → Prop) (s : FacetSet) (space : ValueSpace) :
    Datum → Prop
  | .text length content =>
    (∀ n, s.minLength = some n → n ≤ length) ∧ (∀ n, s.maxLength = some n → length ≤ n) ∧
      (∀ p ∈ s.patterns, matching p content) ∧ s.Lists space (.text length content)
  | .number q =>
    (∀ lower b v, (Aspect.bound lower).get s = some b → Numeral.valueOf? b.lexical = some v →
      Inside lower b.exclusive v q) ∧ s.Lists space (.number q)
  | .truth b => s.Lists space (.truth b)

/-- The decimals that a step states are told apart from those in effect that they are compared
with. -/
structure TellsApart (s : FacetSet) (facets : List Facet) : Prop where
  bounds : ∀ lower b, (Aspect.bound lower).get s = some b →
    ∀ f ∈ facets, ∀ exclusive v, f.numberFacet? = some (.bound lower exclusive v) →
      Numeral.ToldApart b.lexical f.value
  values : ∀ base, s.enumeration = some base → ∀ b ∈ base,
    ∀ f ∈ facets, f.kind = .enumeration → Numeral.ToldApart b f.value

section

variable {s : FacetSet} {facets : List Facet} {space : ValueSpace}

/-- Behind a step, what was in effect of an aspect still is, or something that lies within it. -/
theorem exists_within_of_apply {α : Type} {aspect : Aspect α} (h : aspect.IsLawful)
    (facets : List Facet) (space : ValueSpace) {a : α} (ha : aspect.get s = some a) :
    ∃ b, aspect.get (s.apply facets space).1 = some b ∧ aspect.within b a = true ∧
      (b = a ∨ ∃ f ∈ facets, aspect.stated space f = some b) := by
  have ht := h.isTightest_apply s facets space
  rw [ha] at ht
  obtain ⟨b, hb⟩ := ht.exists_eq (by simp)
  rw [hb] at ht
  refine ⟨b, hb, ht.le h.order (by simp), ?_⟩
  simpa using ht.mem

/-- An enumeration that replaces the one in effect lists nothing else. -/
theorem lists_of_apply {x : Datum} (htold : s.TellsApart facets)
    (h : (s.apply facets space).1.Lists space x) : s.Lists space x := by
  intro base hbase
  rw [Lists, apply_fst] at h
  unfold FacetStep.listing at h
  dsimp only at h
  split_ifs at h with hlisted
  · obtain ⟨v, hv, hx⟩ := h _ rfl
    rw [hbase, Bool.and_eq_true, Option.all_some, List.all_eq_true] at hlisted
    obtain ⟨b, hb, hsame⟩ := List.any_eq_true.1 (hlisted.2 v hv)
    obtain ⟨f, hf, hlist⟩ := List.mem_filterMap.1 hv
    obtain ⟨hkind, rfl, -⟩ := Facet.of_listed? hlist
    exact ⟨b, hb, hx.of_sameValue hsame fun _ => htold.values base hbase b hb f hf hkind⟩
  · exact h base hbase

end

/-- The ends of the range are read from decimals. -/
theorem reads_of_derive (d : Datatype) (steps : List (List Facet)) {lower : Bool} {b : Bound}
    (hb : (Aspect.bound lower).get (.derive d steps) = some b) : ∃ v, b.Reads v := by
  rcases (Aspect.isLawful_bound lower).stated_of_derive hb with hb | ⟨f, -, hb⟩
  · obtain ⟨text, -, h⟩ := Datatype.limit?_of_get hb
    obtain ⟨-, -, v, -, hv⟩ := Bound.of_ofText? h
    exact ⟨v, hv⟩
  · obtain ⟨v, -, hv, -⟩ := Facet.numberFacet?_of_bound? hb
    exact ⟨v, hv⟩

/-- Whatever is admitted behind a further step of a chain was admitted before it. -/
theorem admits_of_apply (matching : String → String → Prop) (d : Datatype)
    (steps : List (List Facet)) (facets : List Facet) (x : Datum)
    (htold : (derive d steps).TellsApart facets)
    (h : ((derive d steps).apply facets d.space).1.Admits matching d.space x) :
    (derive d steps).Admits matching d.space x := by
  cases x with
  | text length content =>
      obtain ⟨hmin, hmax, hpatterns, hlists⟩ := h
      refine ⟨fun n hn => ?_, fun n hn => ?_, fun p hp => hpatterns p ?_,
        lists_of_apply htold hlists⟩
      · obtain ⟨m, hm, hle, -⟩ :=
          exists_within_of_apply Aspect.isLawful_leastLength facets d.space hn
        exact (of_decide_eq_true hle).trans (hmin m hm)
      · obtain ⟨m, hm, hle, -⟩ :=
          exists_within_of_apply Aspect.isLawful_greatestLength facets d.space hn
        exact (hmax m hm).trans (of_decide_eq_true hle)
      · rw [apply_fst]
        exact List.mem_append_left _ hp
  | number q =>
      obtain ⟨hbounds, hlists⟩ := h
      refine ⟨fun lower b w hb hw => ?_, lists_of_apply htold hlists⟩
      obtain ⟨a, ha, hwithin, hstated⟩ :=
        exists_within_of_apply (Aspect.isLawful_bound lower) facets d.space hb
      rcases hstated with rfl | ⟨f, hf, hstated⟩
      · exact hbounds lower a w ha hw
      obtain ⟨w', hreads⟩ := reads_of_derive d steps hb
      obtain rfl := Option.some.inj (hw.symm.trans hreads.valueOf?)
      obtain ⟨v, hnumber, hv, hlexical⟩ := Facet.numberFacet?_of_bound? hstated
      refine Bound.inside_of_within hv hreads hwithin (fun heq => ?_)
        (hbounds lower a v ha hv.valueOf?)
      obtain ⟨n, hn, hy, rfl⟩ := hv
      obtain ⟨m, hm, hx, rfl⟩ := hreads
      rw [hlexical, Numeral.ofText?_trim] at hn
      rw [htold.bounds lower b hb f hf _ _ hnumber m n _ _ hm hn hx hy heq.symm]
      exact .rfl
  | truth t => exact lists_of_apply htold h

/-- Behind `minInclusive 3`, a step with `minInclusive 5` and `enumeration 7` admits seven, and so
does what was before it. -/
theorem admits_of_apply_seven :
    let d : Datatype := ⟨"integer", .integer, none, none, none, none, none⟩
    let s := derive d [[⟨.minInclusive, "3"⟩]]
    let facets : List Facet := [⟨.minInclusive, "5"⟩, ⟨.enumeration, "7"⟩]
    s.TellsApart facets ∧
      (s.apply facets .integer).1.Admits (fun _ _ => False) .integer (.number 7) ∧
      s.Admits (fun _ _ => False) .integer (.number 7) := by
  intro d s facets
  have hs : s = { lower := some ⟨"3", ⟨false, 3 * 2 ^ 51, -51⟩, false⟩ } := by decide +kernel
  have hs' : (s.apply facets .integer).1 =
      { lower := some ⟨"5", ⟨false, 5 * 2 ^ 50, -50⟩, false⟩, enumeration := some ["7"] } := by
    decide +kernel
  have h3 : Numeral.valueOf? "3" = some ((3 : ℤ) : ℚ) := Numeral.valueOf?_intChars 3
  have h5 : Numeral.valueOf? "5" = some ((5 : ℤ) : ℚ) := Numeral.valueOf?_intChars 5
  have h7 : Numeral.valueOf? "7" = some ((7 : ℤ) : ℚ) := Numeral.valueOf?_intChars 7
  have htold : s.TellsApart facets := by
    constructor
    · intro lower b hb f hf exclusive v hv
      cases lower
      · simp [hs, Aspect.bound] at hb
      · obtain rfl : _ = b := by simpa [hs, Aspect.bound] using hb
        have hf5 : f = ⟨.minInclusive, "5"⟩ := by
          rcases List.mem_pair.1 hf with rfl | rfl
          · rfl
          · cases hv
        rw [hf5]
        exact Numeral.toldApart_of_whole h3 h5 (by norm_num) (by norm_num)
    · intro base hbase
      simp [hs] at hbase
  have hadmits : (s.apply facets .integer).1.Admits (fun _ _ => False) .integer (.number 7) := by
    rw [hs']
    refine ⟨fun lower b v hb hv => ?_, fun values hvalues => ?_⟩
    · cases lower
      · simp [Aspect.bound] at hb
      · obtain rfl : _ = b := by simpa [Aspect.bound] using hb
        obtain rfl := Option.some.inj (h5.symm.trans hv)
        norm_num [Inside]
    · obtain rfl := Option.some.inj hvalues
      exact ⟨"7", List.mem_singleton_self _, rfl, by simpa using h7⟩
  exact ⟨htold, hadmits, admits_of_apply _ d _ facets _ htold hadmits⟩

end FacetSet

end Crosswalk
