import Crosswalk.Proofs.Facet.Issues

/-!
# Facets that are reported

A facet that cannot be expressed, read or written has no effect, and a facet that admits more than
the inherited one leaves the inherited one in effect. So a step of one facet about which a problem
is reported changes nothing (`FacetSet.apply_single_of_isProblem`), with one exception. A length is
stated as a least and as a greatest length, one after the other, and either statement may be refused
without the other one. What is left then is a least length above the greatest one
(`FacetSet.HalfTaken.lt`).
-/

namespace Crosswalk

/-- The issue says that the facet was not taken over. -/
def FacetIssue.isProblem : FacetIssue → Bool
  | .unenforced _ _ => false
  | .widening _ _ _ | .notApplicable _ | .invalid _ _ | .untranslatable _ _ => true

/-- A statement that changes what is in effect takes its place, and is narrower. -/
theorem tighten_cases {α : Type} (within : α → α → Bool) (base : Option α) (a : α) :
    tighten within base a = base ∨ tighten within base a = some a ∧
      ∀ b, base = some b → within a b = true ∧ a ≠ b := by
  unfold tighten
  cases base with
  | none => exact .inr ⟨rfl, nofun⟩
  | some b =>
      dsimp only
      split_ifs with hw
      · by_cases hab : a = b
        · exact .inl (congrArg some hab)
        · refine .inr ⟨rfl, fun c hc => ?_⟩
          obtain rfl := Option.some.inj hc
          exact ⟨hw, hab⟩
      · exact .inl rfl

namespace FacetSet

/-! ### Statements are taken or refused -/

theorem narrowNumber_cases (widens : ℕ → ℕ → Bool) (facet : FacetKind) (base : Option ℕ) (n : ℕ) :
    (narrowNumber widens facet base n).2 = [] ∨ (narrowNumber widens facet base n).1 = base := by
  unfold narrowNumber
  split
  · split_ifs
    · exact .inr rfl
    · exact .inl rfl
  · exact .inl rfl

theorem narrowBound_cases (lower : Bool) (facet : FacetKind) (base : Option Bound) (b : Bound) :
    (narrowBound lower facet base b).2 = [] ∨ (narrowBound lower facet base b).1 = base := by
  unfold narrowBound
  split
  · next inherited =>
      by_cases hw : (if lower then b.lowerWithin inherited else b.upperWithin inherited) = true
      · exact .inl (by simp [hw])
      · exact .inr (by simp [hw])
  · exact .inl rfl

theorem isProblem_narrowNumber (widens : ℕ → ℕ → Bool) (facet : FacetKind) (base : Option ℕ)
    (n : ℕ) : (∃ issue ∈ (narrowNumber widens facet base n).2, issue.isProblem = true) ↔
      ∃ b, base = some b ∧ widens n b = true := by
  unfold narrowNumber
  cases base with
  | none => simp
  | some b => by_cases hw : widens n b = true <;> simp [hw, FacetIssue.isProblem]

/-- What a statement did to a facet set: it was taken without an issue, or it left the set as it
was. -/
def IsSettled (s : FacetSet) (outcome : FacetSet × List FacetIssue) : Prop :=
  outcome.2 = [] ∨ outcome.1 = s

variable (s : FacetSet) (facet : FacetKind)

/-- An outcome is settled if it puts what is there already, or something without an issue. -/
theorem isSettled_put {α : Type} {base : α} {stated : α × List FacetIssue} (put : α → FacetSet)
    (hput : put base = s) (h : stated.2 = [] ∨ stated.1 = base) :
    s.IsSettled (put stated.1, stated.2) :=
  h.imp_right fun h => (congrArg put h).trans hput

theorem isSettled_narrowMinLength (n : ℕ) : s.IsSettled (s.narrowMinLength facet n) := by
  have h := narrowNumber_cases (fun n b => n < b) facet s.minLength n
  exact s.isSettled_put (fun v => { s with minLength := v }) rfl h

theorem isSettled_narrowMaxLength (n : ℕ) : s.IsSettled (s.narrowMaxLength facet n) := by
  have h := narrowNumber_cases (fun n b => b < n) facet s.maxLength n
  exact s.isSettled_put (fun v => { s with maxLength := v }) rfl h

theorem isSettled_narrowTotalDigits (n : ℕ) : s.IsSettled (s.narrowTotalDigits n) := by
  have h := narrowNumber_cases (fun n b => b < n) .totalDigits s.totalDigits n
  exact s.isSettled_put (fun v => { s with totalDigits := v }) rfl h

theorem isSettled_narrowFractionDigits (n : ℕ) : s.IsSettled (s.narrowFractionDigits n) := by
  have h := narrowNumber_cases (fun n b => b < n) .fractionDigits s.fractionDigits n
  exact s.isSettled_put (fun v => { s with fractionDigits := v }) rfl h

theorem isSettled_narrowLower (b : Bound) : s.IsSettled (s.narrowLower facet b) := by
  have h := narrowBound_cases true facet s.lower b
  exact s.isSettled_put (fun v => { s with lower := v }) rfl h

theorem isSettled_narrowUpper (b : Bound) : s.IsSettled (s.narrowUpper facet b) := by
  have h := narrowBound_cases false facet s.upper b
  exact s.isSettled_put (fun v => { s with upper := v }) rfl h

end FacetSet

namespace FacetStep

variable (space : ValueSpace) (step : FacetStep) (f : Facet)

/-- Work on a step that reported nothing or left the facets in effect as they were. -/
def IsSettled (after : FacetStep) : Prop :=
  after.issues = step.issues ∨ after.facets = step.facets

theorem isSettled_settle {outcome : FacetSet × List FacetIssue}
    (h : step.facets.IsSettled outcome) : step.IsSettled (step.settle outcome) :=
  h.imp_left fun h => by simp [settle, h]

theorem isSettled_withNumber {admitted : ℕ → Bool} {state : FacetStep → ℕ → FacetStep}
    (h : ∀ n, step.IsSettled (state step n)) : step.IsSettled (step.withNumber f admitted state) := by
  unfold withNumber
  split
  · exact h _
  · exact .inr rfl

theorem isSettled_withBound {exclusive : Bool}
    {state : FacetSet → FacetKind → Bound → FacetSet × List FacetIssue}
    (h : ∀ (s : FacetSet) facet b, s.IsSettled (state s facet b)) :
    step.IsSettled (step.withBound f exclusive state) := by
  unfold withBound
  split
  · exact isSettled_settle step (h _ _ _)
  · exact .inr rfl

/-- A facet other than a length is taken without an issue, or it has no effect. -/
theorem add_cases (hk : f.kind ≠ .length) :
    (add space step f).issues = step.issues ∨
      (add space step f).facets = step.facets ∧ f.pattern? space = none ∧
        f.listed? space = none := by
  obtain ⟨kind, value⟩ := f
  by_cases ha : kind.applies space = true
  · unfold add
    rw [if_neg (by simp [ha])]
    simp only [Facet.pattern?, Facet.listed?, Facet.stated?, ha, and_true]
    cases kind
    case length => exact absurd rfl hk
    case whiteSpace => exact .inl rfl
    case pattern =>
      cases hp : Pattern.translate value <;> simp [addPattern, report, hp, Except.toOption]
    case enumeration =>
      by_cases hv : (space.isNumeric && (Number.ofLexical? value).isNone) = true <;>
        simp [addValue, report, hv]
    case minLength =>
      simpa [IsSettled] using isSettled_withNumber step ⟨.minLength, value⟩ fun n =>
        isSettled_settle step (step.facets.isSettled_narrowMinLength _ n)
    case maxLength =>
      simpa [IsSettled] using isSettled_withNumber step ⟨.maxLength, value⟩ fun n =>
        isSettled_settle step (step.facets.isSettled_narrowMaxLength _ n)
    case totalDigits =>
      simpa [IsSettled] using isSettled_withNumber step ⟨.totalDigits, value⟩ fun n =>
        isSettled_settle step (step.facets.isSettled_narrowTotalDigits n)
    case fractionDigits =>
      simpa [IsSettled] using isSettled_withNumber step ⟨.fractionDigits, value⟩ fun n =>
        isSettled_settle step (step.facets.isSettled_narrowFractionDigits n)
    case minInclusive =>
      simpa [IsSettled] using isSettled_withBound step _ FacetSet.isSettled_narrowLower
    case minExclusive =>
      simpa [IsSettled] using isSettled_withBound step _ FacetSet.isSettled_narrowLower
    case maxInclusive =>
      simpa [IsSettled] using isSettled_withBound step _ FacetSet.isSettled_narrowUpper
    case maxExclusive =>
      simpa [IsSettled] using isSettled_withBound step _ FacetSet.isSettled_narrowUpper
  · simp [add, ha, report, Facet.pattern?, Facet.listed?, Facet.stated?]

/-- A listed value has no effect before the end of the step. -/
theorem add_of_enumeration (hk : f.kind = .enumeration) :
    (add space step f).facets = step.facets ∧ f.pattern? space = none := by
  obtain ⟨kind, value⟩ := f
  obtain rfl : kind = .enumeration := hk
  refine ⟨?_, rfl⟩
  unfold add addValue
  split_ifs <;> rfl

/-- A length that can be read is stated as a least and as a greatest one. -/
theorem isProblem_add_length {n : ℕ} {s : FacetSet} (hk : f.kind = .length)
    (hn : f.leastLength? space = some n) :
    (∃ issue ∈ (add space ⟨s, [], [], [], false, false⟩ f).issues, issue.isProblem = true) ↔
      (∃ least, s.minLength = some least ∧ n < least) ∨
        ∃ greatest, s.maxLength = some greatest ∧ greatest < n := by
  obtain ⟨kind, value⟩ := f
  obtain rfl : kind = .length := hk
  obtain ⟨⟨-, ha⟩, hread⟩ := Option.ite_none_right_eq_some.1 hn
  have hissues : (add space ⟨s, [], [], [], false, false⟩ ⟨.length, value⟩).issues =
      (FacetSet.narrowNumber (fun n b => n < b) .length s.minLength n).2 ++
        (FacetSet.narrowNumber (fun n b => b < n) .length s.maxLength n).2 := by
    have hnumber : (Numeral.word? value).filter (fun _ => true) = some n := by
      rw [show Numeral.word? value = some n from hread]
      rfl
    unfold add withNumber
    rw [if_neg (by simpa using ha)]
    dsimp only
    rw [hnumber]
    rfl
  simp only [hissues, List.mem_append, or_and_right, exists_or, FacetSet.isProblem_narrowNumber,
    decide_eq_true_eq]

/-- Nothing that was reported is lost at the end of a step. -/
theorem mem_closeEnumeration {issue : FacetIssue} (h : issue ∈ step.issues) :
    issue ∈ (step.closeEnumeration space).issues := by
  unfold closeEnumeration
  split_ifs
  · exact h
  dsimp only
  split
  · exact h
  · split_ifs
    · exact h
    · exact List.mem_append_left _ h

/-- What the end of a step reports is that an enumeration was refused. -/
theorem closeEnumeration_cases : (step.closeEnumeration space).issues = step.issues ∨
    step.enumeration ≠ [] ∧
      listing space step.facets.enumeration step.enumeration = step.facets.enumeration := by
  unfold closeEnumeration
  by_cases hlisted : step.enumeration.isEmpty = true
  · exact .inl (by rw [if_pos hlisted])
  rw [if_neg hlisted]
  cases hb : step.facets.enumeration with
  | none => exact .inl rfl
  | some base =>
      dsimp only
      split_ifs with hin
      · exact .inl rfl
      · refine .inr ⟨by simpa using hlisted, ?_⟩
        simp only [listing, Option.all_some, Bool.eq_false_iff.2 hin, Bool.and_false,
          Bool.false_eq_true, if_false]

end FacetStep

namespace FacetSet

variable {s : FacetSet} {f : Facet} {facets : List Facet} {space : ValueSpace}

/-- Problems are reported about single facets, or about the enumeration of the step, which is then
refused. -/
theorem isProblem_apply {issue : FacetIssue} (h : issue ∈ (s.apply facets space).2)
    (hproblem : issue.isProblem = true) :
    issue ∈ (facets.foldl (FacetStep.add space) ⟨s, [], [], [], false, false⟩).issues ∨
      facets.filterMap (Facet.listed? space) ≠ [] ∧
        FacetStep.listing space s.enumeration (facets.filterMap (Facet.listed? space)) =
          s.enumeration := by
  obtain ⟨-, hlisted⟩ := FacetStep.gathered_foldl space facets ⟨s, [], [], [], false, false⟩
  obtain ⟨-, hs⟩ := FacetStep.facets_foldl space facets ⟨s, [], [], [], false, false⟩
  rw [List.nil_append] at hlisted
  unfold apply at h
  dsimp only at h hs
  revert h hlisted hs
  generalize facets.foldl (FacetStep.add space) ⟨s, [], [], [], false, false⟩ = step
  intro h hlisted hs
  obtain ⟨more, hmore, hnotes⟩ := step.noteDigits_eq space
  rw [← hs, ← hlisted]
  rcases (step.noteDigits space).closePatterns.closeEnumeration_cases space with hc | hc
  · rw [hc, FacetStep.issues_closePatterns, hmore, List.mem_append] at h
    refine .inl (h.resolve_right fun hm => ?_)
    obtain ⟨facet, detail, rfl⟩ := hnotes issue hm
    exact nomatch hproblem
  · rw [FacetStep.enumeration_closePatterns, FacetStep.facets_closePatterns, hmore] at hc
    exact .inr hc

theorem mem_apply {issue : FacetIssue}
    (h : issue ∈ (facets.foldl (FacetStep.add space) ⟨s, [], [], [], false, false⟩).issues) :
    issue ∈ (s.apply facets space).2 := by
  obtain ⟨more, hmore, -⟩ :=
    (facets.foldl (FacetStep.add space) ⟨s, [], [], [], false, false⟩).noteDigits_eq space
  refine FacetStep.mem_closeEnumeration space _ ?_
  rw [FacetStep.issues_closePatterns, hmore]
  exact List.mem_append_left _ h

/-- A facet changes nothing if it changes nothing at once and nothing of it joins the set at the end
of the step. -/
theorem apply_single_eq (hfacets : (FacetStep.add space ⟨s, [], [], [], false, false⟩ f).facets = s)
    (hpattern : f.pattern? space = none)
    (hlisted : FacetStep.listing space s.enumeration ([f].filterMap (Facet.listed? space)) =
      s.enumeration) : (s.apply [f] space).1 = s := by
  have hnone : [f].filterMap (Facet.pattern? space) = [] := by simp [hpattern]
  rw [apply_fst, List.foldl_cons, List.foldl_nil, hfacets, hlisted, hnone]
  simp [FacetStep.expressions]

/-- A step of one facet about which a problem is reported changes nothing, unless it is a length. -/
theorem apply_single_of_isProblem (hk : f.kind ≠ .length)
    (h : ∃ issue ∈ (s.apply [f] space).2, issue.isProblem = true) : (s.apply [f] space).1 = s := by
  obtain ⟨issue, hmem, hproblem⟩ := h
  rcases isProblem_apply hmem hproblem with hissue | ⟨hne, hlisting⟩
  · rw [List.foldl_cons, List.foldl_nil] at hissue
    rcases FacetStep.add_cases space ⟨s, [], [], [], false, false⟩ f hk with
      hsilent | ⟨hfacets, hpattern, hlisted⟩
    · rw [hsilent] at hissue
      exact nomatch hissue
    · exact apply_single_eq hfacets hpattern (by simp [hlisted, FacetStep.listing])
  · obtain ⟨v, hv⟩ := List.exists_mem_of_ne_nil _ hne
    obtain ⟨g, hg, hlisted⟩ := List.mem_filterMap.1 hv
    obtain rfl := List.mem_singleton.1 hg
    obtain ⟨hfacets, hpattern⟩ := FacetStep.add_of_enumeration space ⟨s, [], [], [], false, false⟩ g
      (Facet.of_listed? hlisted).1
    exact apply_single_eq hfacets hpattern hlisting

/-- A length that is taken as one end of the lengths and refused as the other one. -/
inductive HalfTaken (s : FacetSet) (n : ℕ) : FacetSet → Prop
  /-- It lies above the greatest length, and also above the least one. -/
  | least {greatest : ℕ} (hgreatest : s.maxLength = some greatest) (hn : greatest < n)
      (hleast : ∀ least, s.minLength = some least → least < n) :
      HalfTaken s n { s with minLength := some n }
  /-- It lies below the least length, and also below the greatest one. -/
  | greatest {least : ℕ} (hleast : s.minLength = some least) (hn : n < least)
      (hgreatest : ∀ greatest, s.maxLength = some greatest → n < greatest) :
      HalfTaken s n { s with maxLength := some n }

namespace HalfTaken

variable {n : ℕ} {after : FacetSet}

theorem ne (h : s.HalfTaken n after) : after ≠ s := by
  intro heq
  cases h with
  | least _ _ hleast => exact Nat.lt_irrefl n (hleast n (congrArg minLength heq).symm)
  | greatest _ _ hgreatest => exact Nat.lt_irrefl n (hgreatest n (congrArg maxLength heq).symm)

/-- One end of the lengths refuses it. -/
theorem refused (h : s.HalfTaken n after) : (∃ least, s.minLength = some least ∧ n < least) ∨
    ∃ greatest, s.maxLength = some greatest ∧ greatest < n := by
  cases h with
  | least hgreatest hn _ => exact .inr ⟨_, hgreatest, hn⟩
  | greatest hleast hn _ => exact .inl ⟨_, hleast, hn⟩

/-- No length lies between the two ends that a length taken as one of them leaves. -/
theorem lt (h : s.HalfTaken n after) :
    ∃ least greatest, after.minLength = some least ∧ after.maxLength = some greatest ∧
      greatest < least := by
  cases h with
  | @least greatest hgreatest hn _ => exact ⟨n, greatest, rfl, hgreatest, hn⟩
  | @greatest least hleast hn _ => exact ⟨least, n, hleast, rfl, hn⟩

end HalfTaken

/-- What a length that can be read does. -/
theorem apply_length {n : ℕ} (hk : f.kind = .length) (hn : f.leastLength? space = some n) :
    (s.apply [f] space).1 =
        { s with
          minLength := tighten atLeast s.minLength n
          maxLength := tighten atMost s.maxLength n } ∧
      ((∃ issue ∈ (s.apply [f] space).2, issue.isProblem = true) ↔
        (∃ least, s.minLength = some least ∧ n < least) ∨
          ∃ greatest, s.maxLength = some greatest ∧ greatest < n) := by
  obtain ⟨kind, value⟩ := f
  obtain rfl : kind = .length := hk
  have hlisted : [(⟨.length, value⟩ : Facet)].filterMap (Facet.listed? space) = [] := rfl
  have hpattern : [(⟨.length, value⟩ : Facet)].filterMap (Facet.pattern? space) = [] := rfl
  have hn' : Facet.greatestLength? space ⟨.length, value⟩ = some n := by
    simpa [Facet.greatestLength?, Facet.leastLength?, Facet.stated?] using hn
  constructor
  · rw [apply_fst, hlisted, hpattern, List.foldl_cons, List.foldl_nil, FacetStep.facets_add, hn, hn']
    simp [FacetStep.expressions, FacetStep.listing, Facet.bound?, Facet.boundKind?,
      Facet.totalDigits?, Facet.fractionDigits?, Facet.stated?]
  · rw [← FacetStep.isProblem_add_length space ⟨.length, value⟩ rfl hn]
    constructor
    · rintro ⟨issue, hmem, hproblem⟩
      refine ⟨issue, (isProblem_apply hmem hproblem).resolve_right ?_, hproblem⟩
      exact fun h => h.1 hlisted
    · rintro ⟨issue, hmem, hproblem⟩
      exact ⟨issue, mem_apply hmem, hproblem⟩

/-- A length that cannot be read changes nothing. -/
theorem apply_unread_length (hk : f.kind = .length) (hn : f.leastLength? space = none) :
    (s.apply [f] space).1 = s := by
  obtain ⟨kind, value⟩ := f
  obtain rfl : kind = .length := hk
  have hn' : Facet.greatestLength? space ⟨.length, value⟩ = none := by
    simpa [Facet.greatestLength?, Facet.leastLength?, Facet.stated?] using hn
  refine apply_single_eq ?_ rfl rfl
  rw [FacetStep.facets_add, hn, hn']
  simp [Facet.bound?, Facet.boundKind?, Facet.totalDigits?, Facet.fractionDigits?, Facet.stated?]

/-- A length that one end of the lengths refuses is taken as the other one, if it moves that. -/
theorem halfTaken_of_changes {n : ℕ}
    (hrefused : (∃ least, s.minLength = some least ∧ n < least) ∨
      ∃ greatest, s.maxLength = some greatest ∧ greatest < n)
    (hchanged : { s with
      minLength := tighten atLeast s.minLength n
      maxLength := tighten atMost s.maxLength n } ≠ s) :
    s.HalfTaken n { s with
      minLength := tighten atLeast s.minLength n
      maxLength := tighten atMost s.maxLength n } := by
  rcases hrefused with ⟨least, hleast, hlt⟩ | ⟨greatest, hgreatest, hlt⟩
  · have hkept : tighten atLeast s.minLength n = s.minLength := by
      simp [tighten, atLeast, hleast, Nat.not_le.2 hlt]
    rw [hkept] at hchanged ⊢
    obtain ⟨htaken, hnarrower⟩ := (tighten_cases atMost s.maxLength n).resolve_left
      fun hsame => hchanged (by rw [hsame])
    rw [htaken]
    refine .greatest hleast hlt fun greatest hg => ?_
    obtain ⟨hle, hne⟩ := hnarrower greatest hg
    exact lt_of_le_of_ne (of_decide_eq_true hle) hne
  · have hkept : tighten atMost s.maxLength n = s.maxLength := by
      simp [tighten, atMost, hgreatest, Nat.not_le.2 hlt]
    rw [hkept] at hchanged ⊢
    obtain ⟨htaken, hnarrower⟩ := (tighten_cases atLeast s.minLength n).resolve_left
      fun hsame => hchanged (by rw [hsame])
    rw [htaken]
    refine .least hgreatest hlt fun least hl => ?_
    obtain ⟨hle, hne⟩ := hnarrower least hl
    exact lt_of_le_of_ne (of_decide_eq_true hle) hne.symm

/-- A step of one facet about which a problem is reported changes the facets in effect exactly if
the facet is a length that is taken as one end of the lengths and refused as the other one. -/
theorem apply_single_changes_iff :
    ((∃ issue ∈ (s.apply [f] space).2, issue.isProblem = true) ∧ (s.apply [f] space).1 ≠ s) ↔
      f.kind = .length ∧ ∃ n, f.leastLength? space = some n ∧
        s.HalfTaken n (s.apply [f] space).1 := by
  constructor
  · rintro ⟨hproblem, hchanged⟩
    have hk : f.kind = .length := by
      by_contra hk
      exact hchanged (apply_single_of_isProblem hk hproblem)
    refine ⟨hk, ?_⟩
    cases hn : f.leastLength? space with
    | none => exact absurd (apply_unread_length hk hn) hchanged
    | some n =>
        refine ⟨n, rfl, ?_⟩
        obtain ⟨hafter, hiff⟩ := apply_length hk hn
        rw [hafter] at hchanged ⊢
        exact halfTaken_of_changes (hiff.1 hproblem) hchanged
  · rintro ⟨hk, n, hn, hhalf⟩
    exact ⟨(apply_length hk hn).2.2 hhalf.refused, hhalf.ne⟩

example : ({ maxLength := some 5 } : FacetSet).apply [⟨.length, "10"⟩] .text =
    ({ minLength := some 10, maxLength := some 5 }, [.widening .length "5" "10"]) := by decide

end FacetSet

end Crosswalk
