import Crosswalk.Proofs.Facet.Aspect

/-!
# Steps about which nothing is reported

A facet that cannot be expressed, read or written is reported, and so is an enumeration that does
not lie within the one in effect. Conversely, if a step has no issues, each of its facets states
something, and the values it lists are in effect behind it (`FacetSet.isTaken_of_apply`).
-/

namespace Crosswalk

namespace Facet

/-- The facet states something, unless it is about white space. -/
def IsTaken (space : ValueSpace) (f : Facet) : Prop :=
  f.kind = .whiteSpace ∨ (f.leastLength? space).isSome ∨ (f.greatestLength? space).isSome ∨
    (f.bound? true space).isSome ∨ (f.bound? false space).isSome ∨
    (f.totalDigits? space).isSome ∨ (f.fractionDigits? space).isSome ∨
    (f.pattern? space).isSome ∨ (f.listed? space).isSome

namespace IsTaken

variable {space : ValueSpace} {f : Facet}

/-- A facet of one kind that is taken states what facets of that kind do. -/
theorem exists_bound? (h : f.IsTaken space) {lower exclusive : Bool}
    (hk : boundKind? lower f.kind = some exclusive) : ∃ b, f.bound? lower space = some b := by
  obtain ⟨kind, value⟩ := f
  rw [← Option.isSome_iff_exists]
  cases kind <;> cases lower <;> simp [boundKind?] at hk <;>
    simpa [IsTaken, leastLength?, greatestLength?, totalDigits?, fractionDigits?, pattern?, listed?,
      stated?, bound?, boundKind?] using h

theorem exists_totalDigits? (h : f.IsTaken space) (hk : f.kind = .totalDigits) :
    ∃ t, f.totalDigits? space = some t := by
  obtain ⟨kind, value⟩ := f
  obtain rfl : kind = .totalDigits := hk
  rw [← Option.isSome_iff_exists]
  simpa [IsTaken, leastLength?, greatestLength?, fractionDigits?, pattern?, listed?, stated?,
    bound?, boundKind?] using h

theorem exists_listed? (h : f.IsTaken space) (hk : f.kind = .enumeration) :
    ∃ v, f.listed? space = some v := by
  obtain ⟨kind, value⟩ := f
  obtain rfl : kind = .enumeration := hk
  rw [← Option.isSome_iff_exists]
  simpa [IsTaken, leastLength?, greatestLength?, totalDigits?, fractionDigits?, pattern?, stated?,
    bound?, boundKind?] using h

end IsTaken

end Facet

namespace FacetStep

variable (space : ValueSpace) (step : FacetStep) (f : Facet)

theorem issues_report_ne_nil (issue : FacetIssue) : (step.report issue).issues ≠ [] := by
  simp [report]

theorem prefix_issues_settle (outcome : FacetSet × List FacetIssue) :
    step.issues <+: (step.settle outcome).issues := List.prefix_append _ _

theorem prefix_issues_report (issue : FacetIssue) : step.issues <+: (step.report issue).issues :=
  List.prefix_append _ _

/-- Issues are only added. -/
theorem prefix_issues_add : step.issues <+: (add space step f).issues := by
  have hnumber : ∀ (admitted : ℕ → Bool) (state : FacetStep → ℕ → FacetStep),
      (∀ n, step.issues <+: (state step n).issues) →
      step.issues <+: (step.withNumber f admitted state).issues := by
    intro admitted state h
    unfold withNumber
    split
    · exact h _
    · exact prefix_issues_report _ _
  have hbound : ∀ exclusive state, step.issues <+: (step.withBound f exclusive state).issues := by
    intro exclusive state
    unfold withBound
    split
    · exact prefix_issues_settle _ _
    · exact prefix_issues_report _ _
  unfold add
  split_ifs
  · exact prefix_issues_report _ _
  split
  case h_1 => exact hnumber _ _ fun n =>
    (prefix_issues_settle step _).trans (prefix_issues_settle _ _)
  case h_2 => exact hnumber _ _ fun n => prefix_issues_settle _ _
  case h_3 => exact hnumber _ _ fun n => prefix_issues_settle _ _
  case h_4 =>
    unfold addPattern
    split
    · exact List.prefix_rfl
    · exact prefix_issues_report _ _
  case h_5 =>
    unfold addValue
    split_ifs
    · exact prefix_issues_report _ _
    · exact List.prefix_rfl
  case h_10 => exact hnumber _ _ fun n => prefix_issues_settle _ _
  case h_11 => exact hnumber _ _ fun n => prefix_issues_settle _ _
  case h_12 => exact List.prefix_rfl
  all_goals exact hbound _ _

/-- A facet about which nothing is reported is taken. -/
theorem isTaken_of_issues (h : (add space step f).issues = []) : f.IsTaken space := by
  obtain ⟨kind, value⟩ := f
  unfold add at h
  split_ifs at h with ha
  · exact absurd h (issues_report_ne_nil _ _)
  rw [Bool.not_eq_true', Bool.not_eq_false] at ha
  simp only [Facet.IsTaken, Facet.leastLength?, Facet.greatestLength?, Facet.totalDigits?,
    Facet.fractionDigits?, Facet.pattern?, Facet.listed?, Facet.stated?, Facet.bound?]
  cases kind <;> simp only [withNumber, withBound, addPattern, addValue] at h
  case whiteSpace => exact .inl rfl
  case enumeration =>
    split at h
    · exact absurd h (issues_report_ne_nil _ _)
    · next hv => simp [ha, hv]
  case' length | minLength | maxLength =>
    split at h
    · next hn => simp [ha, (Option.filter_eq_some_iff.1 hn).1]
    · exact absurd h (issues_report_ne_nil _ _)
  all_goals
    split at h
    · next heq => simp [ha, Facet.boundKind?, heq, Except.toOption]
    · exact absurd h (issues_report_ne_nil _ _)

/-- If nothing is reported about a step, all of its facets are taken. -/
theorem isTaken_of_issues_foldl {facets : List Facet} (hf : f ∈ facets) : ∀ step : FacetStep,
    (facets.foldl (add space) step).issues = [] → f.IsTaken space := by
  have hprefix : ∀ (rest : List Facet) (step : FacetStep),
      step.issues <+: (rest.foldl (add space) step).issues := by
    intro rest
    induction rest with
    | nil => exact fun _ => List.prefix_rfl
    | cons g rest ih => exact fun step => (prefix_issues_add space step g).trans (ih _)
  obtain ⟨before, after, rfl⟩ := List.append_of_mem hf
  intro step h
  rw [List.foldl_append, List.foldl_cons] at h
  have hadd := hprefix after (add space (before.foldl (add space) step) f)
  rw [h] at hadd
  exact isTaken_of_issues space _ f (List.prefix_nil.1 hadd)

@[simp] theorem issues_closePatterns : step.closePatterns.issues = step.issues := by
  unfold closePatterns
  split_ifs <;> rfl

/-- If nothing is reported at the end of a step, nothing was before, and what the step lists is in
effect. -/
theorem closeEnumeration_of_issues (h : (step.closeEnumeration space).issues = []) :
    step.issues = [] ∧ (step.enumeration ≠ [] →
      (step.closeEnumeration space).facets.enumeration = some step.enumeration) := by
  unfold closeEnumeration at h ⊢
  split_ifs at h ⊢ with hlisted
  · exact ⟨h, fun hne => absurd (List.isEmpty_iff.1 hlisted) hne⟩
  · dsimp only at h ⊢
    split at h
    · exact ⟨h, fun _ => rfl⟩
    · split_ifs at h ⊢
      · exact ⟨h, fun _ => rfl⟩
      · exact absurd h (issues_report_ne_nil _ _)

end FacetStep

namespace FacetSet

variable {s : FacetSet} {facets : List Facet} {space : ValueSpace}

/-- If nothing is reported about a step, all of its facets are taken, and it lists its values. -/
theorem isTaken_of_apply (h : (s.apply facets space).2 = []) :
    (∀ f ∈ facets, f.IsTaken space) ∧
      (facets.filterMap (Facet.listed? space) ≠ [] →
        (s.apply facets space).1.enumeration = some (facets.filterMap (Facet.listed? space))) := by
  obtain ⟨-, henumeration⟩ :=
    FacetStep.gathered_foldl space facets ⟨s, [], [], [], false, false⟩
  obtain ⟨more, hmore, -⟩ :=
    (facets.foldl (FacetStep.add space) ⟨s, [], [], [], false, false⟩).noteDigits_eq space
  have hclose : ((facets.foldl (FacetStep.add space) ⟨s, [], [], [], false, false⟩).noteDigits
      space).closePatterns.enumeration = facets.filterMap (Facet.listed? space) := by
    rw [FacetStep.enumeration_closePatterns, hmore, henumeration]
    rfl
  obtain ⟨hissues, hlisted⟩ := FacetStep.closeEnumeration_of_issues space _ h
  rw [FacetStep.issues_closePatterns, hmore] at hissues
  rw [hclose] at hlisted
  exact ⟨fun f hf => FacetStep.isTaken_of_issues_foldl space f hf _
    (List.append_eq_nil_iff.1 hissues).1, hlisted⟩

end FacetSet

end Crosswalk
