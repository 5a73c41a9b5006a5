import Crosswalk.Facet.Effective
import Mathlib.Data.List.Basic
import Mathlib.Data.List.Induction
import Mathlib.Data.Nat.Basic

/-!
# What a derivation step does to the facets in effect

A facet set has six aspects of which the narrowest statement counts: the two ends of the lengths,
the two ends of the range and the two numbers of digits. Each is an `Aspect`: where it stands in the
set, what a facet states about it and when a statement lies within another one. A step goes through
its facets and tightens, so that behind a chain of steps the aspect is the last of the statements
that lie within all others (`Aspect.IsLawful.isTightest_derive`). Patterns and enumerations are
gathered over the step and join the set at its end (`FacetSet.apply_fst`).
-/

namespace Crosswalk

/-! ### The tightest statement -/

section

variable {α : Type} {within : α → α → Bool}

/-- Takes the new statement if it lies within the one in effect. -/
def tighten (within : α → α → Bool) (base : Option α) (a : α) : Option α :=
  match base with
  | some b => if within a b then some a else some b
  | none => some a

/-- The result is the last of the candidates that lie within all others. -/
inductive IsTightest (within : α → α → Bool) : Option α → List α → Prop
  | unstated : IsTightest within none []
  | stated {before : List α} {a : α} {after : List α} (hbefore : ∀ c ∈ before, within a c = true)
      (hafter : ∀ c ∈ after, within c a = false) :
      IsTightest within (some a) (before ++ a :: after)

/-- Of two statements one lies within the other, and so on along three. -/
structure IsOrder (within : α → α → Bool) : Prop where
  total : ∀ a b, within a b = true ∨ within b a = true
  trans : ∀ a b c, within a b = true → within b c = true → within a c = true

theorem IsOrder.refl (h : IsOrder within) (a : α) : within a a = true := (h.total a a).elim id id

namespace IsTightest

variable {base : Option α} {candidates : List α}

theorem toList (base : Option α) : IsTightest within base base.toList := by
  cases base with
  | none => exact .unstated
  | some b => exact @stated _ within [] b [] nofun nofun

theorem mem {a : α} (h : IsTightest within (some a) candidates) : a ∈ candidates := by
  cases h
  simp

theorem exists_eq (h : IsTightest within base candidates) (hne : candidates ≠ []) :
    ∃ a, base = some a := by
  cases h
  · exact absurd rfl hne
  · exact ⟨_, rfl⟩

theorem le (ho : IsOrder within) {a c : α} (h : IsTightest within (some a) candidates)
    (hc : c ∈ candidates) : within a c = true := by
  cases h with
  | stated hbefore hafter =>
      rcases List.mem_append.1 hc with hc | hc
      · exact hbefore c hc
      rcases List.mem_cons.1 hc with rfl | hc
      · exact ho.refl c
      · exact (ho.total a c).resolve_right (by simp [hafter c hc])

/-- The first candidate is the result only if no later one lies within it. -/
theorem mem_or_first {first : Option α} {a : α}
    (h : IsTightest within (some a) (first.toList ++ candidates)) :
    a ∈ candidates ∨ first = some a ∧ ∀ c ∈ candidates, within c a = false := by
  cases first with
  | none => exact .inl h.mem
  | some b =>
      generalize heq : (some b).toList ++ candidates = all at h
      cases h with
      | @stated before _ after _ hafter =>
          cases before with
          | nil =>
              obtain ⟨rfl, rfl⟩ := List.cons.inj heq
              exact .inr ⟨rfl, hafter⟩
          | cons c rest =>
              obtain ⟨rfl, rfl⟩ := List.cons.inj heq
              exact .inl (by simp)

theorem tighten (ho : IsOrder within) (h : IsTightest within base candidates) (a : α) :
    IsTightest within (tighten within base a) (candidates ++ [a]) := by
  cases h with
  | unstated => exact .stated nofun nofun
  | @stated before b after hbefore hafter =>
      have hb : IsTightest within (some b) (before ++ b :: after) := .stated hbefore hafter
      unfold Crosswalk.tighten
      dsimp only
      split_ifs with hab
      · exact .stated (fun c hc => ho.trans _ _ _ hab (hb.le ho hc)) nofun
      · rw [List.append_assoc, List.cons_append]
        refine .stated hbefore fun c hc => ?_
        rcases List.mem_append.1 hc with hc | hc
        · exact hafter c hc
        · obtain rfl := List.mem_singleton.1 hc
          exact Bool.not_eq_true _ ▸ hab

theorem foldl (ho : IsOrder within) (statements : List α) :
    ∀ {base : Option α} {candidates : List α}, IsTightest within base candidates →
      IsTightest within (statements.foldl (Crosswalk.tighten within) base)
        (candidates ++ statements) := by
  induction statements with
  | nil => intro base candidates h; simpa using h
  | cons a rest ih =>
      intro base candidates h
      simpa using ih (h.tighten ho a)

end IsTightest

end

/-! ### Aspects -/

/-- Something about values of which the narrowest statement counts. -/
structure Aspect (α : Type) where
  /-- Where it stands in a facet set. -/
  get : FacetSet → Option α
  /-- What a facet states about it. -/
  stated : ValueSpace → Facet → Option α
  within : α → α → Bool

/-- An aspect of which every facet tightens what it states, and which the end of a step leaves as it
is. -/
structure Aspect.IsLawful {α : Type} (aspect : Aspect α) : Prop where
  order : IsOrder aspect.within
  add : ∀ (space : ValueSpace) (step : FacetStep) (f : Facet),
    aspect.get (FacetStep.add space step f).facets =
      (aspect.stated space f).elim (aspect.get step.facets)
        (tighten aspect.within (aspect.get step.facets))
  close : ∀ (s : FacetSet) (patterns : List String) (enumeration : Option (List String)),
    aspect.get { s with patterns, enumeration } = aspect.get s

namespace FacetSet

/-- The greater number is narrower. -/
def atLeast (a b : ℕ) : Bool := b ≤ a

/-- The lesser number is narrower. -/
def atMost (a b : ℕ) : Bool := a ≤ b

theorem not_atLeast (a b : ℕ) : decide (a < b) = !atLeast a b := by
  simp only [atLeast, ← decide_not, Nat.not_le]

theorem not_atMost (a b : ℕ) : decide (b < a) = !atMost a b := by
  simp only [atMost, ← decide_not, Nat.not_le]

/-- The bound admits no value that the other one does not, as far as its floating-point number
tells. -/
def boundWithin (lower : Bool) (b base : Bound) : Bool :=
  if lower then b.lowerWithin base else b.upperWithin base

theorem narrowNumber_fst {widens within : ℕ → ℕ → Bool} (h : ∀ a b, widens a b = !within a b)
    (facet : FacetKind) (base : Option ℕ) (n : ℕ) :
    (narrowNumber widens facet base n).1 = tighten within base n := by
  unfold narrowNumber tighten
  cases base with
  | none => rfl
  | some b => cases hw : within n b <;> simp [h, hw]

theorem narrowBound_fst (lower : Bool) (facet : FacetKind) (base : Option Bound) (b : Bound) :
    (narrowBound lower facet base b).1 = tighten (boundWithin lower) base b := by
  unfold narrowBound tighten boundWithin
  cases base with
  | none => rfl
  | some inherited => dsimp only; split_ifs <;> rfl

variable (s : FacetSet) (facet : FacetKind)

theorem narrowMinLength_fst (n : ℕ) : (s.narrowMinLength facet n).1 =
    { s with minLength := tighten atLeast s.minLength n } := by
  rw [← narrowNumber_fst not_atLeast facet]
  rfl

theorem narrowMaxLength_fst (n : ℕ) : (s.narrowMaxLength facet n).1 =
    { s with maxLength := tighten atMost s.maxLength n } := by
  rw [← narrowNumber_fst not_atMost facet]
  rfl

theorem narrowLower_fst (b : Bound) : (s.narrowLower facet b).1 =
    { s with lower := tighten (boundWithin true) s.lower b } := by
  rw [← narrowBound_fst true facet]
  rfl

theorem narrowUpper_fst (b : Bound) : (s.narrowUpper facet b).1 =
    { s with upper := tighten (boundWithin false) s.upper b } := by
  rw [← narrowBound_fst false facet]
  rfl

theorem narrowTotalDigits_fst (n : ℕ) : (s.narrowTotalDigits n).1 =
    { s with totalDigits := tighten atMost s.totalDigits n } := by
  rw [← narrowNumber_fst not_atMost .totalDigits]
  rfl

theorem narrowFractionDigits_fst (n : ℕ) : (s.narrowFractionDigits n).1 =
    { s with fractionDigits := tighten atMost s.fractionDigits n } := by
  rw [← narrowNumber_fst not_atMost .fractionDigits]
  rfl

end FacetSet

namespace Facet

/-- What a facet of some kinds states in a space in which it can be expressed. -/
def stated? {α : Type} (kinds : List FacetKind) (read : String → Option α) (space : ValueSpace)
    (f : Facet) : Option α :=
  if f.kind ∈ kinds ∧ f.kind.applies space then read f.value else none

/-- The least length that a facet states. -/
def leastLength? : ValueSpace → Facet → Option ℕ := stated? [.length, .minLength] Numeral.word?

/-- The greatest length that a facet states. -/
def greatestLength? : ValueSpace → Facet → Option ℕ := stated? [.length, .maxLength] Numeral.word?

/-- The number of digits that a facet states. -/
def totalDigits? : ValueSpace → Facet → Option ℕ := stated? [.totalDigits] fun value =>
  (Numeral.word? value).filter fun n => 0 < n && n ≤ FacetStep.greatestDigits

/-- The number of digits behind the point that a facet states. -/
def fractionDigits? : ValueSpace → Facet → Option ℕ := stated? [.fractionDigits] fun value =>
  (Numeral.word? value).filter fun n => n ≤ FacetStep.greatestDigits

/-- Whether a facet of this kind bounds that end of the range, and if so, whether the bound itself
lies outside. -/
def boundKind? (lower : Bool) : FacetKind → Option Bool
  | .minInclusive => if lower then some false else none
  | .minExclusive => if lower then some true else none
  | .maxInclusive => if lower then none else some false
  | .maxExclusive => if lower then none else some true
  | _ => none

/-- The bound that a facet states for one end of the range. -/
def bound? (lower : Bool) (space : ValueSpace) (f : Facet) : Option Bound :=
  if f.kind.applies space then (boundKind? lower f.kind).bind (Bound.ofText? f.value) else none

/-- The pattern of a facet, as an expression. -/
def pattern? : ValueSpace → Facet → Option String :=
  stated? [.pattern] fun value => (Pattern.translate value).toOption

/-- The value that a facet lists and that can be written in the space. -/
def listed? (space : ValueSpace) : Facet → Option String :=
  stated? [.enumeration] (fun value =>
    if space.isNumeric && (Number.ofLexical? value).isNone then none else some value) space

theorem of_stated? {α : Type} {kinds : List FacetKind} {read : String → Option α}
    {space : ValueSpace} {f : Facet} {a : α} (h : stated? kinds read space f = some a) :
    f.kind ∈ kinds ∧ read f.value = some a := by
  obtain ⟨⟨hkind, -⟩, hread⟩ := Option.ite_none_right_eq_some.1 h
  exact ⟨hkind, hread⟩

/-- A listed value is that of the facet, and has a JSON number in a space of numbers. -/
theorem of_listed? {space : ValueSpace} {f : Facet} {v : String} (h : f.listed? space = some v) :
    f.kind = .enumeration ∧ v = f.value ∧
      (space.isNumeric = true → ∃ k, Number.ofLexical? f.value = some k) := by
  obtain ⟨hkind, hread⟩ := of_stated? h
  split_ifs at hread with hnumber
  refine ⟨List.mem_singleton.1 hkind, (Option.some.inj hread).symm, fun hnumeric => ?_⟩
  simpa [hnumeric, Option.ne_none_iff_exists'] using hnumber

end Facet

namespace FacetStep

variable (space : ValueSpace) (step : FacetStep) (f : Facet)

theorem facets_withNumber (admitted : ℕ → Bool) (state : FacetStep → ℕ → FacetStep) :
    (step.withNumber f admitted state).facets =
      ((Numeral.word? f.value).filter admitted).elim step.facets
        fun n => (state step n).facets := by
  unfold withNumber
  cases (Numeral.word? f.value).filter admitted <;> rfl

theorem facets_withBound (exclusive : Bool)
    (state : FacetSet → FacetKind → Bound → FacetSet × List FacetIssue) :
    (step.withBound f exclusive state).facets =
      (Bound.ofText? f.value exclusive).elim step.facets
        fun b => (state step.facets f.kind b).1 := by
  unfold withBound
  cases Bound.ofText? f.value exclusive <;> rfl

/-- The facets in effect behind the next facet. -/
theorem facets_add : (add space step f).facets =
    { step.facets with
      minLength := (f.leastLength? space).elim step.facets.minLength
        (tighten FacetSet.atLeast step.facets.minLength)
      maxLength := (f.greatestLength? space).elim step.facets.maxLength
        (tighten FacetSet.atMost step.facets.maxLength)
      lower := (f.bound? true space).elim step.facets.lower
        (tighten (FacetSet.boundWithin true) step.facets.lower)
      upper := (f.bound? false space).elim step.facets.upper
        (tighten (FacetSet.boundWithin false) step.facets.upper)
      totalDigits := (f.totalDigits? space).elim step.facets.totalDigits
        (tighten FacetSet.atMost step.facets.totalDigits)
      fractionDigits := (f.fractionDigits? space).elim step.facets.fractionDigits
        (tighten FacetSet.atMost step.facets.fractionDigits) } := by
  obtain ⟨kind, value⟩ := f
  simp only [add, Facet.leastLength?, Facet.greatestLength?, Facet.totalDigits?,
    Facet.fractionDigits?, Facet.stated?, Facet.bound?]
  by_cases ha : kind.applies space = true
  · rw [if_neg (by simp [ha])]
    cases kind <;> simp only [ha, facets_withNumber, facets_withBound, settle, Facet.boundKind?,
      FacetSet.narrowMinLength_fst, FacetSet.narrowMaxLength_fst, FacetSet.narrowLower_fst,
      FacetSet.narrowUpper_fst, FacetSet.narrowTotalDigits_fst, FacetSet.narrowFractionDigits_fst]
    case length => cases Numeral.word? value <;> simp [Option.filter]
    case minLength => cases Numeral.word? value <;> simp [Option.filter]
    case maxLength => cases Numeral.word? value <;> simp [Option.filter]
    case minInclusive => cases hb : Bound.ofText? value false <;> simp [hb]
    case minExclusive => cases hb : Bound.ofText? value true <;> simp [hb]
    case maxInclusive => cases hb : Bound.ofText? value false <;> simp [hb]
    case maxExclusive => cases hb : Bound.ofText? value true <;> simp [hb]
    case totalDigits =>
      generalize (Numeral.word? value).filter _ = n
      cases n <;> simp
    case fractionDigits =>
      generalize (Numeral.word? value).filter _ = n
      cases n <;> simp
    case pattern =>
      unfold addPattern
      split <;> simp [report]
    case enumeration =>
      unfold addValue
      split <;> simp [report]
    case whiteSpace => simp
  · simp [ha, report]

theorem gathered_withNumber (admitted : ℕ → Bool) {state : FacetStep → ℕ → FacetStep}
    (h : ∀ n, (state step n).patterns = step.patterns ∧
      (state step n).enumeration = step.enumeration) :
    (step.withNumber f admitted state).patterns = step.patterns ∧
      (step.withNumber f admitted state).enumeration = step.enumeration := by
  unfold withNumber
  split
  · exact h _
  · exact ⟨rfl, rfl⟩

theorem gathered_withBound (exclusive : Bool)
    (state : FacetSet → FacetKind → Bound → FacetSet × List FacetIssue) :
    (step.withBound f exclusive state).patterns = step.patterns ∧
      (step.withBound f exclusive state).enumeration = step.enumeration := by
  unfold withBound
  split <;> exact ⟨rfl, rfl⟩

/-- What is gathered behind the next facet. -/
theorem gathered_add :
    (add space step f).patterns = step.patterns ++ (f.pattern? space).toList ∧
      (add space step f).enumeration = step.enumeration ++ (f.listed? space).toList := by
  obtain ⟨kind, value⟩ := f
  simp only [add, Facet.pattern?, Facet.listed?, Facet.stated?]
  by_cases ha : kind.applies space = true
  · rw [if_neg (by simp [ha])]
    cases kind
    case length => simpa [ha] using gathered_withNumber step _ _ fun n => ⟨rfl, rfl⟩
    case minLength => simpa [ha] using gathered_withNumber step _ _ fun n => ⟨rfl, rfl⟩
    case maxLength => simpa [ha] using gathered_withNumber step _ _ fun n => ⟨rfl, rfl⟩
    case totalDigits => simpa [ha] using gathered_withNumber step _ _ fun n => ⟨rfl, rfl⟩
    case fractionDigits => simpa [ha] using gathered_withNumber step _ _ fun n => ⟨rfl, rfl⟩
    case minInclusive => simpa [ha] using gathered_withBound step _ _ _
    case minExclusive => simpa [ha] using gathered_withBound step _ _ _
    case maxInclusive => simpa [ha] using gathered_withBound step _ _ _
    case maxExclusive => simpa [ha] using gathered_withBound step _ _ _
    case whiteSpace => simp [ha]
    case pattern =>
      unfold addPattern
      cases Pattern.translate value <;> simp [ha, report, Except.toOption]
    case enumeration =>
      unfold addValue
      by_cases hv : (space.isNumeric && (Number.ofLexical? value).isNone) = true <;>
        simp only [ha, hv, report] <;> simp
  · simp [ha, report]

/-- What is gathered over the facets of a step. -/
theorem gathered_foldl (facets : List Facet) : ∀ step : FacetStep,
    (facets.foldl (add space) step).patterns =
        step.patterns ++ facets.filterMap (Facet.pattern? space) ∧
      (facets.foldl (add space) step).enumeration =
        step.enumeration ++ facets.filterMap (Facet.listed? space) := by
  induction facets with
  | nil => simp
  | cons f rest ih =>
      intro step
      obtain ⟨hp, he⟩ := gathered_add space step f
      rw [List.foldl_cons, (ih _).1, (ih _).2, hp, he, List.append_assoc, List.append_assoc,
        List.filterMap_cons, List.filterMap_cons]
      cases f.pattern? space <;> cases f.listed? space <;> exact ⟨rfl, rfl⟩

/-- Patterns and enumeration stay as they are while the facets of a step are worked in. -/
theorem facets_foldl (facets : List Facet) : ∀ step : FacetStep,
    (facets.foldl (add space) step).facets.patterns = step.facets.patterns ∧
      (facets.foldl (add space) step).facets.enumeration = step.facets.enumeration := by
  induction facets with
  | nil => simp
  | cons f rest ih =>
      intro step
      rw [List.foldl_cons, (ih _).1, (ih _).2, facets_add]
      exact ⟨rfl, rfl⟩

/-- Reports on digits are nothing but reports of what is not enforced. -/
theorem noteDigits_eq : ∃ more,
    step.noteDigits space = { step with issues := step.issues ++ more } ∧
      ∀ issue ∈ more, ∃ facet detail, issue = .unenforced facet detail := by
  unfold noteDigits report
  dsimp only
  split_ifs
  · exact ⟨[_, _], by rw [List.append_assoc]; rfl, by simp⟩
  · exact ⟨[_], rfl, by simp⟩
  · exact ⟨[_], rfl, by simp⟩
  all_goals exact ⟨[], by rw [List.append_nil], nofun⟩

/-- The expression that the patterns of a step make, if there are any. -/
def expressions (alternatives : List String) : List String :=
  if alternatives.isEmpty then [] else [Pattern.anchored alternatives]

/-- The enumeration in effect behind a step that lists values: theirs, if it is the first one or
each of them is one of those in effect. -/
def listing (base : Option (List String)) (listed : List String) : Option (List String) :=
  if !listed.isEmpty && base.all fun values => listed.all fun v => values.any (space.sameValue · v)
  then some listed else base

theorem facets_closePatterns : step.closePatterns.facets =
    { step.facets with patterns := step.facets.patterns ++ expressions step.patterns } := by
  unfold closePatterns expressions
  split_ifs
  · simp
  · rfl

@[simp] theorem enumeration_closePatterns : step.closePatterns.enumeration = step.enumeration := by
  unfold closePatterns
  split_ifs <;> rfl

theorem facets_closeEnumeration : (step.closeEnumeration space).facets =
    { step.facets with
      enumeration := listing space step.facets.enumeration step.enumeration } := by
  unfold closeEnumeration listing
  cases hl : step.enumeration.isEmpty
  · cases hb : step.facets.enumeration with
    | none => simp
    | some base =>
        simp only [Bool.false_eq_true, if_false, Bool.not_false, Bool.true_and, Option.all_some]
        split_ifs
        · rfl
        · simp [report, ← hb]
  · simp

end FacetStep

namespace FacetSet

variable (s : FacetSet) (facets : List Facet) (space : ValueSpace)

/-- Behind a step, patterns and enumeration have joined what the facets did one by one. -/
theorem apply_fst : (s.apply facets space).1 =
    { (facets.foldl (FacetStep.add space) ⟨s, [], [], [], false, false⟩).facets with
      patterns := s.patterns ++
        FacetStep.expressions (facets.filterMap (Facet.pattern? space))
      enumeration := FacetStep.listing space s.enumeration
        (facets.filterMap (Facet.listed? space)) } := by
  obtain ⟨hpatterns, henumeration⟩ :=
    FacetStep.gathered_foldl space facets ⟨s, [], [], [], false, false⟩
  obtain ⟨hs, hs'⟩ := FacetStep.facets_foldl space facets ⟨s, [], [], [], false, false⟩
  unfold apply
  dsimp only
  obtain ⟨more, hmore, -⟩ :=
    (facets.foldl (FacetStep.add space) ⟨s, [], [], [], false, false⟩).noteDigits_eq space
  rw [hmore, FacetStep.facets_closeEnumeration, FacetStep.facets_closePatterns,
    FacetStep.enumeration_closePatterns]
  simp only [hpatterns, henumeration, hs, hs', List.nil_append]

/-- The facets in effect behind a chain of steps that goes back to a datatype. -/
def derive (d : Datatype) (steps : List (List Facet)) : FacetSet :=
  steps.foldl (fun s facets => (s.apply facets d.space).1) (ofDatatype d)

theorem derive_append (d : Datatype) (steps : List (List Facet)) (facets : List Facet) :
    derive d (steps ++ [facets]) = ((derive d steps).apply facets d.space).1 := by
  simp [derive]

end FacetSet

namespace Aspect

variable {α : Type} {aspect : Aspect α}

/-- What the facets of a chain state about an aspect, behind what comes with the datatype. -/
def statements (aspect : Aspect α) (d : Datatype) (steps : List (List Facet)) : List α :=
  (aspect.get (.ofDatatype d)).toList ++ steps.flatten.filterMap (aspect.stated d.space)

namespace IsLawful

variable (h : aspect.IsLawful)
include h

theorem get_foldl (space : ValueSpace) (facets : List Facet) : ∀ step : FacetStep,
    aspect.get (facets.foldl (FacetStep.add space) step).facets =
      (facets.filterMap (aspect.stated space)).foldl (tighten aspect.within)
        (aspect.get step.facets) := by
  induction facets with
  | nil => intro step; rfl
  | cons f rest ih =>
      intro step
      rw [List.foldl_cons, ih, h.add, List.filterMap_cons]
      cases aspect.stated space f <;> rfl

/-- A step tightens an aspect by what its facets state. -/
theorem get_apply (s : FacetSet) (facets : List Facet) (space : ValueSpace) :
    aspect.get (s.apply facets space).1 =
      (facets.filterMap (aspect.stated space)).foldl (tighten aspect.within) (aspect.get s) := by
  rw [FacetSet.apply_fst, h.close, h.get_foldl]

/-- Behind a step, an aspect is the tightest of what it was and what the step states. -/
theorem isTightest_apply (s : FacetSet) (facets : List Facet) (space : ValueSpace) :
    IsTightest aspect.within (aspect.get (s.apply facets space).1)
      ((aspect.get s).toList ++ facets.filterMap (aspect.stated space)) := by
  rw [h.get_apply]
  exact (IsTightest.toList _).foldl h.order _

/-- Behind a chain, an aspect is the tightest of all that was stated about it. -/
theorem isTightest_derive (d : Datatype) (steps : List (List Facet)) :
    IsTightest aspect.within (aspect.get (.derive d steps)) (aspect.statements d steps) := by
  induction steps using List.reverseRecOn with
  | nil => simpa [statements, FacetSet.derive] using IsTightest.toList (aspect.get (.ofDatatype d))
  | append_singleton steps facets ih =>
      rw [FacetSet.derive_append, h.get_apply]
      simpa [statements] using ih.foldl h.order (facets.filterMap (aspect.stated d.space))

/-- What is in effect of an aspect comes with the datatype or is stated by a facet. -/
theorem stated_of_derive {d : Datatype} {steps : List (List Facet)} {a : α}
    (ha : aspect.get (.derive d steps) = some a) :
    aspect.get (.ofDatatype d) = some a ∨
      ∃ f ∈ steps.flatten, aspect.stated d.space f = some a := by
  have ht := h.isTightest_derive d steps
  rw [ha] at ht
  rcases List.mem_append.1 ht.mem with hmem | hmem
  · exact .inl (Option.mem_toList.1 hmem)
  · exact .inr (List.mem_filterMap.1 hmem)

end IsLawful

/-! ### The numbers -/

theorem isOrder_atLeast : IsOrder FacetSet.atLeast where
  total a b := by simpa [FacetSet.atLeast] using le_total b a
  trans a b c := by simpa [FacetSet.atLeast] using fun hab hbc => le_trans hbc hab

theorem isOrder_atMost : IsOrder FacetSet.atMost where
  total a b := by simpa [FacetSet.atMost] using le_total a b
  trans a b c := by simpa [FacetSet.atMost] using le_trans

/-- The least length. -/
def leastLength : Aspect ℕ := ⟨FacetSet.minLength, Facet.leastLength?, FacetSet.atLeast⟩

/-- The greatest length. -/
def greatestLength : Aspect ℕ := ⟨FacetSet.maxLength, Facet.greatestLength?, FacetSet.atMost⟩

/-- The number of digits. -/
def totalDigits : Aspect ℕ := ⟨FacetSet.totalDigits, Facet.totalDigits?, FacetSet.atMost⟩

/-- The number of digits behind the point. -/
def fractionDigits : Aspect ℕ :=
  ⟨FacetSet.fractionDigits, Facet.fractionDigits?, FacetSet.atMost⟩

theorem isLawful_leastLength : leastLength.IsLawful where
  order := isOrder_atLeast
  add space step f := by rw [FacetStep.facets_add]; rfl
  close _ _ _ := rfl

theorem isLawful_greatestLength : greatestLength.IsLawful where
  order := isOrder_atMost
  add space step f := by rw [FacetStep.facets_add]; rfl
  close _ _ _ := rfl

theorem isLawful_totalDigits : totalDigits.IsLawful where
  order := isOrder_atMost
  add space step f := by rw [FacetStep.facets_add]; rfl
  close _ _ _ := rfl

theorem isLawful_fractionDigits : fractionDigits.IsLawful where
  order := isOrder_atMost
  add space step f := by rw [FacetStep.facets_add]; rfl
  close _ _ _ := rfl

end Aspect

end Crosswalk
