import Crosswalk.Proofs.Facet.Range

/-!
# Numbers that satisfy all facets

Bounds that are whole numbers of 53 binary places are compared and written exactly, as are those
that come with a datatype. So a number that all facets of a chain admit meets every keyword of the
range, with one exception (`FacetSet.meets_keywords_iff_of_admits`): of a decimal with a total
number of digits and a number of digits behind the point, the document asks that the difference be
enough for the digits before the point, even if fewer than allowed are behind it.
-/

namespace Crosswalk

open Check

/-- The ends that come with the datatypes are written exactly. -/
theorem Datatype.isWritten_of_mem {d : Datatype} (hd : d ∈ Datatype.all) {lower : Bool} {b : Bound}
    (h : (Aspect.bound lower).get (.ofDatatype d) = some b) :
    b.exclusive = false ∧ ∃ text v, d.limit? lower = some text ∧
      Numeral.valueOf? text = some v ∧ b.IsWritten v := by
  have hint : ∀ d ∈ Datatype.all, ∀ lower, ∀ text ∈ (d.limit? lower).toList,
      ∃ n, Number.ofLexical? text = some (.int n) := by
    have hcheck : ∀ d ∈ Datatype.all, ∀ lower, ∀ text ∈ (d.limit? lower).toList,
        ((Numeral.int? (Text.trimChars text.toList)).filter Number.fits).isSome := by
      decide +kernel
    intro d hd lower text htext
    obtain ⟨n, hn⟩ := Option.isSome_iff_exists.1 (hcheck d hd lower text htext)
    exact ⟨n, by rw [Number.ofLexical?, Number.ofLexicalChars?, hn]⟩
  obtain ⟨text, htext, hb⟩ := d.limit?_of_get h
  obtain ⟨n, hn⟩ := hint d hd lower text (Option.mem_toList.2 htext)
  have hvalue := Number.valueOf?_of_int hn
  obtain ⟨hlexical, hexclusive, v, hv, hreads⟩ := Bound.of_ofText? hb
  obtain rfl := Option.some.inj (hvalue.symm.trans hv)
  exact ⟨hexclusive, text, n, htext, hvalue, hreads, .int n,
    by rw [hlexical, Number.ofLexical?_trim, hn], rfl⟩

/-- The bounds that facets state are whole numbers of 53 binary places. -/
def WholeBounds (facets : List Facet) : Prop :=
  ∀ f ∈ facets, ∀ lower exclusive v, f.numberFacet? = some (.bound lower exclusive v) →
    ∃ i : ℤ, v = i ∧ |i| < 2 ^ 53

/-- The number lies within the range of the datatype. -/
def Datatype.InRange (d : Datatype) (x : ℚ) : Prop :=
  ∀ lower text v, d.limit? lower = some text → Numeral.valueOf? text = some v →
    Inside lower false v x

namespace FacetSet

variable {d : Datatype} {steps : List (List Facet)} {x : ℚ}

/-- A stated end of the range is written exactly and admits the number. -/
theorem exists_isWritten (hd : d ∈ Datatype.all) (hwhole : WholeBounds steps.flatten)
    (hrange : d.InRange x)
    (hfacets : ∀ f ∈ steps.flatten, ∀ l, f.numberFacet? = some l → l.Admits x) {lower : Bool}
    {b : Bound} (hb : (Aspect.bound lower).get (.derive d steps) = some b) :
    ∃ v, b.IsWritten v ∧ Inside lower b.exclusive v x := by
  rcases (Aspect.isLawful_bound lower).stated_of_derive hb with hb | ⟨f, hf, hb⟩
  · obtain ⟨he, text, v, htext, hv, hwritten⟩ := Datatype.isWritten_of_mem hd hb
    exact ⟨v, hwritten, he ▸ hrange lower text v htext hv⟩
  · obtain ⟨v, hnumber, hreads, -⟩ := Facet.numberFacet?_of_bound? hb
    obtain ⟨i, rfl, hi⟩ := hwhole f hf _ _ _ hnumber
    exact ⟨i, ⟨hreads, Number.ofLexical?_of_whole hreads.valueOf? hi⟩, hfacets f hf _ hnumber⟩

/-- What digit counts imply of a number that they admit, except of one of a decimal with digits
behind the point. -/
theorem abs_lt_of_magnitude? (hnumeric : d.space.isNumeric = true)
    (hfacets : ∀ f ∈ steps.flatten, ∀ l, f.numberFacet? = some l → l.Admits x) {m : ℕ}
    (hm : (derive d steps).magnitude? d.space = some m)
    (hdecimal : ∀ t n, d.space = .decimal → (derive d steps).totalDigits = some t →
      (derive d steps).fractionDigits = some n → t - n = m → |x| < 10 ^ m) :
    |x| < 10 ^ m := by
  obtain ⟨t, ht, rfl⟩ := Option.map_eq_some_iff.1 hm
  have htotal : |x| < 10 ^ t := by
    rcases Aspect.isLawful_totalDigits.stated_of_derive ht with h | ⟨f, hf, h⟩
    · cases h
    · exact NumberFacet.abs_lt_of_totalDigits
        (hfacets f hf _ (Facet.numberFacet?_of_totalDigits? h))
  split_ifs at hdecimal ⊢ with hspace
  · exact htotal
  · cases hn : (derive d steps).fractionDigits with
    | none => simpa using htotal
    | some n =>
        rw [hn] at hdecimal
        refine hdecimal t n ?_ ht rfl (by rw [Option.getD_some]; omega)
        simpa [ValueSpace.isNumeric, hspace] using hnumeric

section

variable (hd : d ∈ Datatype.all) (hwhole : WholeBounds steps.flatten) (hrange : d.InRange x)
  (hfacets : ∀ f ∈ steps.flatten, ∀ l, f.numberFacet? = some l → l.Admits x)
include hd hwhole hrange hfacets

/-- An end that a number meets keeps it within what digit counts imply, whether that is the end in
effect or a stated one is. -/
theorem inside_of_implied {lower : Bool} {m : ℕ} (hm : (derive d steps).magnitude? d.space = some m)
    (hle : m ≤ 18)
    (hend : ∀ b k, (derive d steps).effective d.space lower = some b →
      Number.ofLexical? b.lexical = some k → Inside lower b.exclusive k.value x) :
    Inside lower true (powerEnd lower m) x := by
  obtain ⟨b, hb, he, hreads, k, hk, hv⟩ := exists_implied hm hle lower
  rcases @effective_cases (derive d steps) d.space lower with
    ⟨hnone, -⟩ | ⟨b', hb', hcases⟩
  · exact absurd (hb.symm.trans hnone) (by simp)
  obtain rfl := Option.some.inj (hb.symm.trans hb')
  rcases hcases with heffective | ⟨e, hstated, -, hnot⟩
  · exact he ▸ hv ▸ hend b k heffective hk
  · obtain ⟨v, hwritten, hinside⟩ := exists_isWritten hd hwhole hrange hfacets hstated
    exact hinside.of_deeper (Bound.deeper_of_not_within hwritten.1 hreads he hnot)

/-- An end in effect that is stated keeps the number within; so does one that digit counts imply, if
the number is that small. -/
theorem inside_of_effective {lower : Bool}
    (hsmall : ∀ m, (derive d steps).magnitude? d.space = some m → m ≤ 18 → |x| < 10 ^ m)
    {e : Bound} {k : Number} (heffective : (derive d steps).effective d.space lower = some e)
    (hk : Number.ofLexical? e.lexical = some k) : Inside lower e.exclusive k.value x := by
  have hstated : ∀ {e : Bound}, (Aspect.bound lower).get (derive d steps) = some e →
      Number.ofLexical? e.lexical = some k → Inside lower e.exclusive k.value x := by
    intro e he hk
    obtain ⟨v, ⟨-, k', hk', rfl⟩, hinside⟩ :=
      exists_isWritten hd hwhole hrange hfacets he
    obtain rfl := Option.some.inj (hk.symm.trans hk')
    exact hinside
  rcases @effective_cases (derive d steps) d.space lower with
    ⟨-, heq⟩ | ⟨b, hb, heq | ⟨e', he', heq, -⟩⟩
  · exact hstated (heq ▸ heffective) hk
  · obtain rfl := Option.some.inj (heffective.symm.trans heq)
    obtain ⟨m, hm, hmagnitude⟩ := magnitude?_of_implied hb
    obtain ⟨b', hb', he, -, k', hk', hv⟩ := exists_implied hmagnitude hm lower
    obtain rfl := Option.some.inj (hb.symm.trans hb')
    obtain rfl := Option.some.inj (hk.symm.trans hk')
    rw [he, hv]
    exact inside_powerEnd_iff.2 (hsmall m hmagnitude hm) lower
  · obtain rfl := Option.some.inj (heffective.symm.trans heq)
    exact hstated he' hk

end

/-- A number without a digit behind the point is whole. -/
theorem exists_int_of_fractionDigits
    (hfacets : ∀ f ∈ steps.flatten, ∀ l, f.numberFacet? = some l → l.Admits x)
    (hn : (derive d steps).fractionDigits = some 0) : ∃ i : ℤ, x = i := by
  rcases Aspect.isLawful_fractionDigits.stated_of_derive hn with h | ⟨f, hf, h⟩
  · cases h
  · obtain ⟨i, hi⟩ := hfacets f hf _ (Facet.numberFacet?_of_fractionDigits? h)
    exact ⟨i, by simpa using hi⟩

/-- A number that all facets of a chain and the range of its datatype admit meets the keywords about
numbers if and only if, of a decimal for which both digit counts are stated, the digits before the
point are no more than the difference of the counts. -/
theorem meets_keywords_iff_of_admits (hd : d ∈ Datatype.all) (hnumeric : d.space.isNumeric = true)
    (hwhole : WholeBounds steps.flatten) (hrange : d.InRange x)
    (hfacets : ∀ f ∈ steps.flatten, ∀ l, f.numberFacet? = some l → l.Admits x) :
    (∀ member ∈ (derive d steps).keywords d, Meets x member) ↔
      ∀ t n, d.space = .decimal → (derive d steps).totalDigits = some t →
        (derive d steps).fractionDigits = some n → t - n ≤ 18 → |x| < 10 ^ (t - n) := by
  rw [meets_keywords_iff]
  constructor
  · rintro ⟨hends, -⟩ t n hspace ht hn hle
    refine inside_powerEnd_iff.1 fun lower => ?_
    have hm : (derive d steps).magnitude? d.space = some (t - n) := by
      rw [magnitude?, ht, Option.map_some, if_neg (by simp [hspace]), hn, Option.getD_some]
      congr 1
      omega
    exact inside_of_implied hd hwhole hrange hfacets hm hle (hends lower)
  · intro hdecimal
    refine ⟨fun lower e k => inside_of_effective hd hwhole hrange hfacets fun m hm hle => ?_,
      fun hn => exists_int_of_fractionDigits hfacets hn.1⟩
    refine abs_lt_of_magnitude? hnumeric hfacets hm ?_
    rintro t n hspace ht hn rfl
    exact hdecimal t n hspace ht hn hle

/-! ### Two numbers of five digits -/

/-- A decimal with five digits, two of which may be behind the point. -/
def fiveDigits : Datatype × List (List Facet) :=
  (⟨"decimal", .decimal, none, none, none, none, none⟩,
    [[⟨.minInclusive, "-3"⟩], [⟨.totalDigits, "5"⟩, ⟨.fractionDigits, "2"⟩]])

theorem numberFacet?_fiveDigits {f : Facet} {l : NumberFacet} (hf : f ∈ fiveDigits.2.flatten)
    (hl : f.numberFacet? = some l) :
    l = .bound true false (-3 : ℤ) ∨ l = .totalDigits 5 ∨ l = .fractionDigits 2 := by
  have hread : Numeral.valueOf? "-3" = some ((-3 : ℤ) : ℚ) :=
    Number.valueOf?_of_int (by decide +kernel)
  have hfive : Numeral.word? "5" = some 5 := by decide +kernel
  have htwo : Numeral.word? "2" = some 2 := by decide +kernel
  simp only [fiveDigits, List.flatten_cons, List.flatten_nil, List.cons_append, List.nil_append,
    List.mem_cons, List.not_mem_nil, or_false] at hf
  rcases hf with rfl | rfl | rfl
  · exact .inl (by simpa [Facet.numberFacet?, hread] using hl.symm)
  · exact .inr (.inl (by simpa [Facet.numberFacet?, hfive] using hl.symm))
  · exact .inr (.inr (by simpa [Facet.numberFacet?, htwo] using hl.symm))

theorem wholeBounds_fiveDigits : WholeBounds fiveDigits.2.flatten := by
  intro f hf lower exclusive v hv
  rcases numberFacet?_fiveDigits hf hv with h | h | h
  · cases h
    exact ⟨-3, rfl, by norm_num⟩
  · cases h
  · cases h

theorem inRange_fiveDigits (x : ℚ) : fiveDigits.1.InRange x := by
  intro lower text v htext
  cases lower <;> cases htext

/-- Sixteen and a quarter has five digits at most, two of them behind the point, and meets all
keywords. -/
theorem meets_keywords_quarter :
    fiveDigits.1 ∈ Datatype.all ∧ WholeBounds fiveDigits.2.flatten ∧
      fiveDigits.1.InRange (65 / 4) ∧
      (∀ f ∈ fiveDigits.2.flatten, ∀ l, f.numberFacet? = some l → l.Admits (65 / 4)) ∧
      ∀ member ∈ (derive fiveDigits.1 fiveDigits.2).keywords fiveDigits.1,
        Meets (65 / 4) member := by
  have hmem : fiveDigits.1 ∈ Datatype.all := by decide
  have hadmits : ∀ f ∈ fiveDigits.2.flatten, ∀ l, f.numberFacet? = some l →
      l.Admits (65 / 4) := by
    intro f hf l hl
    rcases numberFacet?_fiveDigits hf hl with rfl | rfl | rfl
    · norm_num [NumberFacet.Admits, Inside]
    · exact ⟨1625, 2, by norm_num, by norm_num, by norm_num⟩
    · exact ⟨1625, by norm_num⟩
  refine ⟨hmem, wholeBounds_fiveDigits, inRange_fiveDigits _, hadmits,
    (meets_keywords_iff_of_admits hmem rfl wholeBounds_fiveDigits (inRange_fiveDigits _)
      hadmits).2 fun t n _ ht hn _ => ?_⟩
  have hdigits : (derive fiveDigits.1 fiveDigits.2).totalDigits = some 5 ∧
      (derive fiveDigits.1 fiveDigits.2).fractionDigits = some 2 := by decide +kernel
  obtain rfl := Option.some.inj (hdigits.1.symm.trans ht)
  obtain rfl := Option.some.inj (hdigits.2.symm.trans hn)
  norm_num [abs_of_pos]

/-- The number 99999 has five digits, none of them behind the point, and is refused. -/
theorem not_meets_keywords_five_nines :
    fiveDigits.1 ∈ Datatype.all ∧ WholeBounds fiveDigits.2.flatten ∧ fiveDigits.1.InRange 99999 ∧
      (∀ f ∈ fiveDigits.2.flatten, ∀ l, f.numberFacet? = some l → l.Admits 99999) ∧
      ¬∀ member ∈ (derive fiveDigits.1 fiveDigits.2).keywords fiveDigits.1,
        Meets 99999 member := by
  refine ⟨by decide, wholeBounds_fiveDigits, inRange_fiveDigits _, ?_, ?_⟩
  · intro f hf l hl
    rcases numberFacet?_fiveDigits hf hl with rfl | rfl | rfl
    · norm_num [NumberFacet.Admits, Inside]
    · exact ⟨99999, 0, by norm_num, by norm_num, by norm_num⟩
    · exact ⟨9999900, by norm_num⟩
  · intro h
    have hend : (derive fiveDigits.1 fiveDigits.2).effective .decimal false =
        some ⟨"1000", ⟨false, 125 * 2 ^ 46, -43⟩, true⟩ := by decide +kernel
    have hnumber : Number.ofLexical? "1000" = some (.int 1000) := by decide +kernel
    have hinside := (meets_keywords_iff.1 h).1 false _ _ hend hnumber
    norm_num [Inside] at hinside

end FacetSet

end Crosswalk
