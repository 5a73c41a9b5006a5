import Crosswalk.Proofs.Facet.Digits
import Crosswalk.Proofs.Facet.Issues
import Crosswalk.Proofs.Facet.Literals

/-!
# Integers that a document accepts

If nothing is reported about the steps of a chain of integers, what the document accepts satisfies
the facets of the chain: all bounds, the enumeration that was stated last, and the digit counts if
one of them is at most eighteen (`FacetSet.satisfies_of_accepts`). A count beyond that is looser
than any range in practice and bounds nothing, by design; a number with one digit too many is
accepted then (`FacetSet.accepts_twenty_digits`).

Literals are compared and written as numbers of limited precision. What is asked for is that no
integer tell the difference (`ExactForIntegers`).
-/

namespace Crosswalk

open Check

namespace FacetSet

/-- What is reported about steps behind the facets in effect. -/
def issuesFrom (space : ValueSpace) : FacetSet → List (List Facet) → List FacetIssue
  | _, [] => []
  | s, step :: rest => (s.apply step space).2 ++ issuesFrom space (s.apply step space).1 rest

/-- Nothing is reported about any step of the chain. -/
def IsSilent (d : Datatype) (steps : List (List Facet)) : Prop :=
  issuesFrom d.space (.ofDatatype d) steps = []

instance (d : Datatype) (steps : List (List Facet)) : Decidable (IsSilent d steps) :=
  inferInstanceAs (Decidable (_ = _))

/-- The bounds that a chain states for one end of the range, with the one that its digit counts
imply. -/
def ends (lower : Bool) (d : Datatype) (steps : List (List Facet)) : List Bound :=
  steps.flatten.filterMap (Facet.bound? lower d.space) ++
    ((derive d steps).implied d.space lower).toList

/-- Integers do not tell the numbers of a chain from the decimals that are written in it. -/
structure ExactForIntegers (d : Datatype) (steps : List (List Facet)) : Prop where
  /-- The JSON number that is written for a literal is on the same side of every integer. -/
  written : ∀ f ∈ steps.flatten, ∀ k v, Number.ofLexical? f.value = some k →
    Numeral.valueOf? f.value = some v → ∀ n : ℤ, SameSide n k.value v
  /-- Ends that are rounded to one number are on the same side of every integer. -/
  compared : ∀ lower, ∀ a ∈ ends lower d steps, ∀ b ∈ ends lower d steps,
    a.value.value = b.value.value → ∀ v w, a.Reads v → b.Reads w → ∀ n : ℤ, SameSide n v w

variable {d : Datatype} {steps : List (List Facet)}

/-- The end of the range in a document is the tightest of all. -/
theorem isTightest_effective (lower : Bool) : IsTightest (boundWithin lower)
    ((derive d steps).effective d.space lower)
    (((Aspect.bound lower).get (.ofDatatype d)).toList ++ ends lower d steps) := by
  have hstated := (Aspect.isLawful_bound lower).isTightest_derive d steps
  rw [effective_eq, ends, ← List.append_assoc]
  cases (derive d steps).implied d.space lower with
  | none =>
      rw [Option.elim_none, Option.toList_none, List.append_nil]
      exact hstated
  | some b => exact hstated.tighten (Aspect.isOrder_boundWithin lower) b

/-- The end of the range in a document is written so that no integer tells the difference. -/
theorem sameSide_of_effective (hd : d ∈ Datatype.all) (hexact : ExactForIntegers d steps)
    {lower : Bool} {e : Bound} (he : (derive d steps).effective d.space lower = some e) :
    ∃ v k, e.Reads v ∧ Number.ofLexical? e.lexical = some k ∧ ∀ n : ℤ, SameSide n k.value v := by
  have hmem := @isTightest_effective d steps lower
  rw [he] at hmem
  rcases List.mem_append.1 hmem.mem with h | h
  · obtain ⟨-, -, v, -, -, hreads, k, hk, rfl⟩ :=
      Datatype.isWritten_of_mem hd (Option.mem_toList.1 h)
    exact ⟨_, k, hreads, hk, fun n => .rfl⟩
  rcases List.mem_append.1 h with h | h
  · obtain ⟨f, hf, hb⟩ := List.mem_filterMap.1 h
    obtain ⟨v, -, hreads, hlexical⟩ := Facet.numberFacet?_of_bound? hb
    obtain ⟨k, hk⟩ := hreads.exists_number
    refine ⟨v, k, hreads, hk, hexact.written f hf k v ?_ ?_⟩
    · rw [← hk, hlexical, Number.ofLexical?_trim]
    · rw [← hreads.valueOf?, hlexical, Numeral.valueOf?_trim]
  · have hb := Option.mem_toList.1 h
    obtain ⟨m, hm, hmagnitude⟩ := magnitude?_of_implied hb
    obtain ⟨b', hb', -, hreads, k, hk, hv⟩ := exists_implied hmagnitude hm lower
    obtain rfl := Option.some.inj (hb'.symm.trans hb)
    exact ⟨_, k, hreads, hk, fun n => hv ▸ .rfl⟩

/-- An integer that meets the keywords lies inside of every end of the chain. -/
theorem inside_of_meets (hd : d ∈ Datatype.all) (hexact : ExactForIntegers d steps) {n : ℤ}
    (h : ∀ member ∈ (derive d steps).keywords d, Meets n member) {lower : Bool} {c : Bound}
    (hc : c ∈ ends lower d steps) {w : ℚ} (hw : c.Reads w) : Inside lower c.exclusive w n := by
  have hlast := @isTightest_effective d steps lower
  obtain ⟨e, he⟩ :=
    hlast.exists_eq (List.append_ne_nil_of_right_ne_nil _ (List.ne_nil_of_mem hc))
  rw [he] at hlast
  obtain ⟨v, k, hreads, hk, hsame⟩ := sameSide_of_effective hd hexact he
  have hinside : Inside lower e.exclusive v n :=
    ((meets_keywords_iff.1 h).1 lower e k he hk).of_sameSide (hsame n)
      (by cases e.exclusive <;> simp)
  have hwithin := hlast.le (Aspect.isOrder_boundWithin lower) (List.mem_append_right _ hc)
  refine Bound.inside_of_within hreads hw hwithin (fun heq => ?_) hinside
  rcases hlast.mem_or_first with hmem | ⟨hfirst, hlater⟩
  · exact hexact.compared lower e hmem c hc heq v w hreads hw n
  · -- The end of the datatype stays only if no stated one lies within it, an equal one included.
    have hwithin : boundWithin lower c e = true :=
      Bound.within_iff.2 (.inr ⟨heq.symm, .inr (Datatype.isWritten_of_mem hd hfirst).1⟩)
    exact absurd hwithin (by simp [hlater c hc])

theorem issuesFrom_append (space : ValueSpace) (before after : List (List Facet)) :
    ∀ s : FacetSet, issuesFrom space s (before ++ after) = issuesFrom space s before ++
      issuesFrom space (before.foldl (fun s step => (s.apply step space).1) s) after := by
  induction before with
  | nil => intro s; rfl
  | cons step rest ih =>
      intro s
      rw [List.cons_append, issuesFrom, ih, issuesFrom, List.append_assoc, List.foldl_cons]

theorem IsSilent.issues {before after : List (List Facet)} {step : List Facet}
    (h : IsSilent d (before ++ step :: after)) : ((derive d before).apply step d.space).2 = [] := by
  rw [IsSilent, issuesFrom_append] at h
  exact (List.append_eq_nil_iff.1 (List.append_eq_nil_iff.1 h).2).1

/-- All facets of a chain about which nothing is reported are taken. -/
theorem IsSilent.isTaken (h : IsSilent d steps) {f : Facet} (hf : f ∈ steps.flatten) :
    f.IsTaken d.space := by
  obtain ⟨step, hstep, hmem⟩ := List.mem_flatten.1 hf
  obtain ⟨before, after, rfl⟩ := List.append_of_mem hstep
  exact (isTaken_of_apply h.issues).1 f hmem

/-- The least number of digits is in effect, and an integer inside of the power of ten that it
implies has no more digits than any count allows. -/
theorem admits_totalDigits (hspace : d.space = .integer) {n : ℤ}
    (hends : ∀ lower, ∀ c ∈ ends lower d steps, ∀ w, c.Reads w → Inside lower c.exclusive w n)
    {t t' : ℕ} (ht : ∃ f ∈ steps.flatten, f.totalDigits? d.space = some t)
    (ht' : ∃ f ∈ steps.flatten, f.totalDigits? d.space = some t') (hle : t' ≤ 18) :
    (NumberFacet.totalDigits t).Admits n := by
  have htightest := Aspect.isLawful_totalDigits.isTightest_derive d steps
  have hstated : ∀ {t}, (∃ f ∈ steps.flatten, f.totalDigits? d.space = some t) →
      t ∈ Aspect.totalDigits.statements d steps := fun ⟨f, hf, h⟩ =>
    List.mem_append_right _ (List.mem_filterMap.2 ⟨f, hf, h⟩)
  obtain ⟨least, hleast⟩ := htightest.exists_eq (List.ne_nil_of_mem (hstated ht))
  rw [hleast] at htightest
  have hmost : ∀ {t}, (∃ f ∈ steps.flatten, f.totalDigits? d.space = some t) → least ≤ t :=
    fun h => of_decide_eq_true (htightest.le Aspect.isOrder_atMost (hstated h))
  have hmagnitude : (derive d steps).magnitude? d.space = some least :=
    Option.map_eq_some_iff.2 ⟨least, hleast, if_pos hspace⟩
  have habs : |(n : ℚ)| < 10 ^ least := by
    refine inside_powerEnd_iff.1 fun lower => ?_
    obtain ⟨b, hb, he, hreads, -⟩ := exists_implied hmagnitude ((hmost ht').trans hle) lower
    exact he ▸ hends lower b (List.mem_append_right _ (Option.mem_toList.2 hb)) _ hreads
  refine NumberFacet.totalDigits_admits_int (lt_of_lt_of_le ?_
    (pow_le_pow_right₀ (by norm_num : (1 : ℤ) ≤ 10) (hmost ht)))
  exact_mod_cast habs

theorem enumeration_of_apply (s : FacetSet) {facets : List Facet} (space : ValueSpace)
    (h : ∀ f ∈ facets, f.kind ≠ .enumeration) :
    (s.apply facets space).1.enumeration = s.enumeration := by
  have hnil : facets.filterMap (Facet.listed? space) = [] :=
    List.filterMap_eq_nil_iff.2 fun f hf =>
      Option.eq_none_iff_forall_ne_some.2 fun v hv => h f hf (Facet.of_listed? hv).1
  rw [apply_fst, hnil]
  rfl

/-- The values that the last enumerating step of a silent chain lists are in effect. -/
theorem enumeration_of_isSilent {before : List (List Facet)} {step : List Facet}
    (hsilent : ((derive d before).apply step d.space).2 = [])
    (hstep : ∃ f ∈ step, f.kind = .enumeration) {after : List (List Facet)}
    (hafter : ∀ later ∈ after, ∀ f ∈ later, f.kind ≠ .enumeration) :
    (derive d (before ++ step :: after)).enumeration =
      some (step.filterMap (Facet.listed? d.space)) := by
  induction after using List.reverseRecOn with
  | nil =>
      obtain ⟨hall, hlisted⟩ := isTaken_of_apply hsilent
      rw [derive_append]
      refine hlisted fun hnil => ?_
      obtain ⟨f, hf, hkind⟩ := hstep
      obtain ⟨v, hv⟩ := (hall f hf).exists_listed? hkind
      exact absurd (List.filterMap_eq_nil_iff.1 hnil f hf) (by simp [hv])
  | append_singleton after later ih =>
      rw [← List.cons_append, ← List.append_assoc, derive_append,
        enumeration_of_apply _ _ (hafter later (by simp))]
      exact ih fun l hl => hafter l (by simp [hl])

/-- An integer that the document lists is the value of a literal of the step. -/
theorem exists_value_of_complaints (hnumeric : d.space.isNumeric = true) {a : Number} {n : ℤ}
    (ha : a.value = n) {step : List Facet}
    (hwritten : ∀ f ∈ step, ∀ k v, Number.ofLexical? f.value = some k →
      Numeral.valueOf? f.value = some v → SameSide n k.value v)
    (h : complaints "enum"
      (.array ((step.filterMap (Facet.listed? d.space)).map d.space.literal)) (.number a) = []) :
    ∃ f ∈ step, f.kind = .enumeration ∧ Numeral.valueOf? f.value = some (n : ℚ) := by
  obtain ⟨literal, hv, k, hk, hsame⟩ := (complaints_enum_number hnumeric).1 h
  obtain ⟨f, hf, hlisted⟩ := List.mem_filterMap.1 hv
  obtain ⟨hkind, rfl, -⟩ := Facet.of_listed? hlisted
  refine ⟨f, hf, hkind, ?_⟩
  have hvalue : k.value = n := hsame.trans ha
  obtain ⟨m, hm, -⟩ := Number.of_ofLexical? hk
  have hread : Numeral.valueOf? f.value = some m.value := Option.map_eq_some_iff.2 ⟨m, hm, rfl⟩
  obtain ⟨hlt, hgt⟩ := hwritten f hf k _ hk hread
  rw [hvalue] at hlt hgt
  rw [hread, le_antisymm (not_lt.1 fun h => lt_irrefl _ (hlt.2 h))
    (not_lt.1 fun h => lt_irrefl _ (hgt.2 h))]

variable {Home : Type} {follow : Follow Home} {home : Home}

/-- A JSON number with a whole value that the document accepts satisfies the facets of a chain of
integers about which nothing is reported: every bound, every digit count if one of them is at most
eighteen, and the enumeration of the last step that has one. -/
theorem satisfies_of_accepts (hd : d ∈ Datatype.all) (hspace : d.space = .integer)
    (hsilent : IsSilent d steps) (hexact : ExactForIntegers d steps) {a : Number} {n : ℤ}
    (ha : a.value = n)
    (h : Accepts follow home (.number a) (.object ((derive d steps).keywords d))) :
    (∀ f ∈ steps.flatten, ∀ lower exclusive, Facet.boundKind? lower f.kind = some exclusive →
      ∃ v, f.numberFacet? = some (.bound lower exclusive v) ∧ Inside lower exclusive v n) ∧
    (∀ f ∈ steps.flatten, f.kind = .totalDigits → ∃ t, f.numberFacet? = some (.totalDigits t) ∧
      ((∃ g ∈ steps.flatten, ∃ t' ≤ 18, g.numberFacet? = some (.totalDigits t')) →
        (NumberFacet.totalDigits t).Admits n)) ∧
    ∀ before step after, steps = before ++ step :: after → (∃ f ∈ step, f.kind = .enumeration) →
      (∀ later ∈ after, ∀ f ∈ later, f.kind ≠ .enumeration) →
      ∃ f ∈ step, f.kind = .enumeration ∧ Numeral.valueOf? f.value = some (n : ℚ) := by
  obtain ⟨-, hlisted, hmeets⟩ := (accepts_number_iff _ d).1 h
  rw [ha] at hmeets
  have hends : ∀ lower, ∀ c ∈ ends lower d steps, ∀ w, c.Reads w →
      Inside lower c.exclusive w n := fun lower c hc w hw =>
    inside_of_meets hd hexact hmeets hc hw
  refine ⟨fun f hf lower exclusive hkind => ?_, fun f hf hkind => ?_,
    fun before step after hsteps hstep hafter => ?_⟩
  · obtain ⟨b, hb⟩ := (hsilent.isTaken hf).exists_bound? hkind
    obtain ⟨v, hnumber, hv, -⟩ := Facet.numberFacet?_of_bound? hb
    have hinside := hends lower b (List.mem_append_left _ (List.mem_filterMap.2 ⟨f, hf, hb⟩)) v hv
    obtain ⟨w, -, heq⟩ := Option.map_eq_some_iff.1
      ((Facet.numberFacet?_of_boundKind? hkind).symm.trans hnumber)
    obtain ⟨-, rfl, -⟩ := NumberFacet.bound.inj heq
    exact ⟨v, hnumber, hinside⟩
  · obtain ⟨t, ht⟩ := (hsilent.isTaken hf).exists_totalDigits? hkind
    refine ⟨t, Facet.numberFacet?_of_totalDigits? ht, fun ⟨g, hg, t', hle, ht'⟩ => ?_⟩
    have htaken : ∃ g ∈ steps.flatten, g.totalDigits? d.space = some t' := by
      obtain ⟨t'', ht''⟩ :=
        (hsilent.isTaken hg).exists_totalDigits? (Facet.kind_of_totalDigits ht')
      have heq := (Facet.numberFacet?_of_totalDigits? ht'').symm.trans ht'
      obtain rfl := NumberFacet.totalDigits.inj (Option.some.inj heq)
      exact ⟨g, hg, ht''⟩
    exact admits_totalDigits hspace hends ⟨f, hf, ht⟩ htaken hle
  · have henumeration : (derive d steps).enumeration =
        some (step.filterMap (Facet.listed? d.space)) := by
      subst hsteps
      exact enumeration_of_isSilent hsilent.issues hstep hafter
    refine exists_value_of_complaints (by simp [hspace, ValueSpace.isNumeric]) ha
      (fun f hf k v hk hv => hexact.written f ?_ k v hk hv n) (hlisted _ henumeration)
    rw [hsteps]
    simp [hf]

/-! ### Two chains of integers -/

/-- The integers. -/
def integers : Datatype := ⟨"integer", .integer, none, none, none, none, none⟩

/-- Literals that are integers are written exactly. -/
theorem sameSide_of_int {text : String} (h : ∃ i, Number.ofLexical? text = some (.int i))
    {k : Number} {v : ℚ} (hk : Number.ofLexical? text = some k)
    (hv : Numeral.valueOf? text = some v) (q : ℚ) : SameSide q k.value v := by
  obtain ⟨i, hi⟩ := h
  obtain rfl := Option.some.inj (hi.symm.trans hk)
  obtain rfl := Option.some.inj ((Number.valueOf?_of_int hi).symm.trans hv)
  exact .rfl

/-- At least three and of two digits, and then seven. -/
def sevens : List (List Facet) :=
  [[⟨.minInclusive, "3"⟩, ⟨.totalDigits, "2"⟩], [⟨.enumeration, "7"⟩]]

theorem exactForIntegers_sevens : ExactForIntegers integers sevens where
  written f hf k v hk hv n := by
    refine sameSide_of_int ?_ hk hv n
    simp only [sevens, List.flatten_cons, List.flatten_nil, List.cons_append, List.nil_append,
      List.mem_cons, List.not_mem_nil, or_false] at hf
    rcases hf with rfl | rfl | rfl
    · exact ⟨3, by decide +kernel⟩
    · exact ⟨2, by decide +kernel⟩
    · exact ⟨7, by decide +kernel⟩
  compared lower a ha b hb heq v w hv hw n := by
    have hends : ∀ lower, ∀ a ∈ ends lower integers sevens, ∀ b ∈ ends lower integers sevens,
        a.value.compare b.value = .eq → a = b := by decide +kernel
    obtain rfl := hends lower a ha b hb ((Double.compare_eq _ _).trans (compare_eq_iff_eq.2 heq))
    rw [Option.some.inj (hv.valueOf?.symm.trans hw.valueOf?)]
    exact .rfl

/-- Nothing is reported about that chain, and the document accepts seven, which is what the last
step lists. -/
theorem satisfies_of_accepts_seven :
    integers ∈ Datatype.all ∧ IsSilent integers sevens ∧ ExactForIntegers integers sevens ∧
      Accepts (fun _ _ _ _ => []) () (.number (.int 7))
        (.object ((derive integers sevens).keywords integers)) ∧
      ∃ f ∈ sevens.flatten, f.kind = .enumeration ∧
        Numeral.valueOf? f.value = some ((7 : ℤ) : ℚ) := by
  have hsilent : IsSilent integers sevens := by decide +kernel
  have haccepts : Accepts (fun _ _ _ _ => []) () (.number (.int 7))
      (.object ((derive integers sevens).keywords integers)) := by
    refine (accepts_number_iff _ _).2 ⟨rfl, fun values hv => ?_, meets_keywords_iff.2 ⟨?_, ?_⟩⟩
    · have hlisted : (derive integers sevens).enumeration = some ["7"] := by decide +kernel
      obtain rfl := Option.some.inj (hlisted.symm.trans hv)
      refine complaintUnless_eq_nil.2 ?_
      decide +kernel
    · intro lower b k hb hk
      cases lower
      · have hend : (derive integers sevens).effective .integer false =
            some ⟨"100", ⟨false, 25 * 2 ^ 48, -46⟩, true⟩ := by decide +kernel
        obtain rfl := Option.some.inj (hend.symm.trans hb)
        have hnumber : Number.ofLexical? "100" = some (.int 100) := by decide +kernel
        obtain rfl := Option.some.inj (hnumber.symm.trans hk)
        norm_num [Inside]
      · have hend : (derive integers sevens).effective .integer true =
            some ⟨"3", ⟨false, 3 * 2 ^ 51, -51⟩, false⟩ := by decide +kernel
        obtain rfl := Option.some.inj (hend.symm.trans hb)
        have hnumber : Number.ofLexical? "3" = some (.int 3) := by decide +kernel
        obtain rfl := Option.some.inj (hnumber.symm.trans hk)
        norm_num [Inside]
    · rintro ⟨-, hspace⟩
      cases hspace
  refine ⟨by decide, hsilent, exactForIntegers_sevens, haccepts, ?_⟩
  obtain ⟨-, -, hlast⟩ := satisfies_of_accepts (by decide) rfl hsilent exactForIntegers_sevens
    (n := 7) rfl haccepts
  obtain ⟨f, hf, hvalue⟩ := hlast [_] _ [] rfl ⟨_, List.mem_singleton_self _, rfl⟩
    (by simp)
  exact ⟨f, by simp [sevens, List.mem_singleton.1 hf], hvalue⟩

/-- The document of a chain that states nineteen digits, about which nothing is reported, accepts an
integer of twenty digits. -/
theorem accepts_twenty_digits :
    integers ∈ Datatype.all ∧ IsSilent integers [[⟨.totalDigits, "19"⟩]] ∧
      ExactForIntegers integers [[⟨.totalDigits, "19"⟩]] ∧
      Accepts (fun _ _ _ _ => []) () (.number (.int 18446744073709551615))
        (.object ((derive integers [[⟨.totalDigits, "19"⟩]]).keywords integers)) ∧
      (⟨.totalDigits, "19"⟩ : Facet).numberFacet? = some (.totalDigits 19) ∧
      ¬(NumberFacet.totalDigits 19).Admits (18446744073709551615 : ℤ) := by
  have hends : ∀ lower, ends lower integers [[⟨.totalDigits, "19"⟩]] = [] ∧
      (derive integers [[⟨.totalDigits, "19"⟩]]).effective .integer lower = none := by
    decide +kernel
  refine ⟨by decide, by decide +kernel, ⟨fun f hf k v hk hv n => ?_, fun lower a ha => ?_⟩, ?_, ?_,
    fun h => ?_⟩
  · obtain rfl := List.mem_singleton.1 hf
    exact sameSide_of_int ⟨19, by decide +kernel⟩ hk hv n
  · rw [(hends lower).1] at ha
    exact absurd ha List.not_mem_nil
  · refine (accepts_number_iff _ _).2 ⟨rfl, fun values hv => ?_, meets_keywords_iff.2 ⟨?_, ?_⟩⟩
    · have hnone : (derive integers [[⟨.totalDigits, "19"⟩]]).enumeration = none := by
        decide +kernel
      exact absurd (hnone.symm.trans hv) (by simp)
    · intro lower b k hb
      exact absurd ((hends lower).2.symm.trans hb) (by simp)
    · rintro ⟨-, hspace⟩
      cases hspace
  · exact congrArg (Option.map NumberFacet.totalDigits)
      (show Numeral.word? "19" = some 19 by decide +kernel)
  · have hlt := NumberFacet.abs_lt_of_totalDigits h
    norm_num [abs_of_pos] at hlt

end FacetSet

end Crosswalk
