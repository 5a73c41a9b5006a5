import Crosswalk.Proofs.Facet.Strings
import Crosswalk.Proofs.Pattern.Ordinary

/-!
# Chains of ordinary patterns

Each step that states patterns adds one expression to the document, as the keyword `pattern` or
within `allOf`. If the patterns are expressions over ordinary sets of characters, all of them are
translated, and the expressions in the document are found in exactly the strings that match one of
the patterns of each step (`FacetSet.patterns_exact`).
-/

namespace Crosswalk

open Pattern

/-- A keyword asks for an expression: `pattern` for its own, and `allOf` for those of its
members. -/
def AsksFor (p : String) (keyword : String × Json) : Prop :=
  keyword = ("pattern", .string p) ∨ ∃ schemas fields, keyword = ("allOf", .array schemas) ∧
    .object fields ∈ schemas ∧ ("pattern", .string p) ∈ fields

namespace AsksFor

variable {p : String}

theorem pattern_iff {q : String} : AsksFor p ("pattern", .string q) ↔ p = q := by
  simp [AsksFor, eq_comm]

theorem allOf_iff {patterns : List String} : AsksFor p ("allOf",
    .array (patterns.map fun r => .object [("pattern", .string r)])) ↔ p ∈ patterns := by
  simp [AsksFor]

theorem of_other {name : String} {value : Json} (hpattern : name ≠ "pattern")
    (hall : name ≠ "allOf") : ¬AsksFor p (name, value) := by
  simp [AsksFor, hpattern, hall]

end AsksFor

namespace FacetSet

/-- The keywords ask for the expressions in effect. -/
theorem forall_asksFor_iff {s : FacetSet} {d : Datatype} {Q : String → Prop} :
    (∀ keyword ∈ s.keywords d, ∀ p, AsksFor p keyword → Q p) ↔ ∀ p ∈ s.patterns, Q p := by
  have hother : ∀ name value, name ≠ "pattern" → name ≠ "allOf" →
      ∀ p, AsksFor p (name, value) → Q p :=
    fun _ _ hpattern hall _ h => absurd h (AsksFor.of_other hpattern hall)
  rw [forall_mem_keywords_iff fun keyword => ∀ p, AsksFor p keyword → Q p]
  constructor
  · intro h p hp
    cases hs : s.patterns with
    | nil => simp [hs] at hp
    | cons q rest =>
        obtain ⟨hfirst, hrest⟩ := h.patterns q rest hs
        rw [hs] at hp
        rcases List.mem_cons.1 hp with rfl | hp
        · exact hfirst p (AsksFor.pattern_iff.2 rfl)
        · exact hrest (List.ne_nil_of_mem hp) p (AsksFor.allOf_iff.2 hp)
  · intro h
    exact {
      type := hother _ _ (by decide) (by decide)
      format := fun _ _ => hother _ _ (by decide) (by decide)
      encoding := fun _ _ => hother _ _ (by decide) (by decide)
      minLength := fun _ _ => hother _ _ (by decide) (by decide)
      maxLength := fun _ _ => hother _ _ (by decide) (by decide)
      patterns := fun q rest hs => by
        rw [hs, List.forall_mem_cons] at h
        exact ⟨fun p hp => AsksFor.pattern_iff.1 hp ▸ h.1,
          fun _ p hp => h.2 p (AsksFor.allOf_iff.1 hp)⟩
      enumeration := fun _ _ => hother _ _ (by decide) (by decide)
      lower := fun _ _ _ _ => by split_ifs <;> exact hother _ _ (by decide) (by decide)
      upper := fun _ _ _ _ => by split_ifs <;> exact hother _ _ (by decide) (by decide)
      whole := fun _ => hother _ _ (by decide) (by decide) }

theorem pattern?_of_hasPattern {space : ValueSpace} (h : space.hasPattern = false) (f : Facet) :
    f.pattern? space = none := by
  unfold Facet.pattern? Facet.stated?
  rw [if_neg]
  rintro ⟨hkind, happlies⟩
  rw [List.mem_singleton.1 hkind] at happlies
  exact Bool.noConfusion (h.symm.trans happlies)

/-- The patterns of a step are written for their expressions. -/
theorem areWritten_step {space : ValueSpace} (hspace : space.hasPattern = true)
    {tree : String → Expression} {step : List Facet}
    (htree : ∀ f ∈ step, f.kind = .pattern →
      (tree f.value).IsOrdinary ∧ (tree f.value).text = f.value.toList) :
    AreWritten (step.filterMap (Facet.pattern? space))
      ((step.filter fun f => f.kind = .pattern).map fun f => tree f.value) := by
  induction step with
  | nil => exact .nil
  | cons f rest ih =>
      obtain ⟨hf, hrest⟩ := List.forall_mem_cons.1 htree
      rw [List.filterMap_cons, List.filter_cons]
      by_cases hk : f.kind = .pattern
      · obtain ⟨hordinary, htext⟩ := hf hk
        obtain ⟨p, hp⟩ := Expression.exists_translate hordinary htext.symm
        have hpattern : f.pattern? space = some p := by
          simp [Facet.pattern?, Facet.stated?, hk, FacetKind.applies, hspace, hp, Except.toOption]
        rw [hpattern, if_pos (by simpa using hk)]
        exact .cons (Facet.written?_of_pattern? hpattern htext) (ih hrest)
      · have hpattern : f.pattern? space = none := by
          simp [Facet.pattern?, Facet.stated?, hk]
        rw [hpattern, if_neg (by simpa using hk)]
        exact ih hrest

/-- The expressions of a step are found in the texts that match one of its patterns, and if it has
none, in all texts. -/
theorem isFoundIn_step_iff (u : Alphabet) {space : ValueSpace} (hspace : space.hasPattern = true)
    {tree : String → Expression} {step : List Facet}
    (htree : ∀ f ∈ step, f.kind = .pattern →
      (tree f.value).IsOrdinary ∧ (tree f.value).text = f.value.toList) (v : String) :
    (∀ p ∈ FacetStep.expressions (step.filterMap (Facet.pattern? space)), Regex.IsFoundIn p v) ↔
      ((∃ f ∈ step, f.kind = .pattern) →
        ∃ f ∈ step, f.kind = .pattern ∧ v.toList ∈ (tree f.value).language (CharSet.has u)) := by
  have hwritten := areWritten_step hspace htree
  have hempty : step.filterMap (Facet.pattern? space) = [] ↔ ¬∃ f ∈ step, f.kind = .pattern := by
    rw [← List.length_eq_zero_iff, hwritten.length_eq]
    simp
  unfold FacetStep.expressions
  split_ifs with hnone
  · have hnopattern := hempty.1 (List.isEmpty_iff.1 hnone)
    simp [hnopattern]
  · have hne : step.filterMap (Facet.pattern? space) ≠ [] := fun h => hnone (List.isEmpty_iff.2 h)
    have hpattern : ∃ f ∈ step, f.kind = .pattern := by
      by_contra h
      exact hne (hempty.2 h)
    rw [List.forall_mem_singleton, isFoundIn_anchored_iff u hwritten hne, forall_prop_of_true hpattern]
    · simp [and_assoc]
    · intro x hx
      obtain ⟨f, hf, rfl⟩ := List.mem_map.1 hx
      obtain ⟨hmem, hk⟩ := List.mem_filter.1 hf
      exact (htree f hmem (by simpa using hk)).1

/-- The class `[b-d]`. -/
def fewLetters : CharGroup where
  negated := false
  leading := false
  members := [.range (.plain 'b' (by decide)) (.plain 'd' (by decide)) (by decide)]
  trailing := false
  nonempty := .inr (List.cons_ne_nil _ _)
  first _ _ := by decide

/-- The expression `^[b-d]+$`. -/
def betweenSigns : Expression :=
  .single (.cons (.chars (.single (.plain '^' (by decide)))) .once
    (.cons (.chars (.bracketed (.all fewLetters))) .positive
      (.cons (.chars (.single (.plain '$' (by decide)))) .once .nil)))

/-- The expression `x|\.`. -/
def lonely : Expression :=
  .choice (.cons (.chars (.single (.plain 'x' (by decide)))) .once .nil)
    (.single (.cons (.chars (.single (.escaped '.' (by decide)))) .once .nil))

theorem mem_betweenSigns (u : Alphabet) (cs : List Char) (hne : cs ≠ [])
    (h : ∀ c ∈ cs, 'b' ≤ c ∧ c ≤ 'd') :
    '^' :: (cs ++ ['$']) ∈ betweenSigns.language (CharSet.has u) := by
  have hsign : ∀ {sign : Char} (hs : sign ∉ special), [sign] ∈
      Quantifier.once.repeated ((Atom.chars (.single (.plain sign hs))).language
        (CharSet.has u)) := fun hs =>
    Quantifier.once.mem_repeated_of_forall (fun c hc => List.mem_singleton.1 hc) (Nat.le_refl 1)
      (by simp [Quantifier.most])
  have hletters : cs ∈ Quantifier.positive.repeated
      ((Atom.chars (.bracketed (.all fewLetters))).language (CharSet.has u)) := by
    refine Quantifier.positive.mem_repeated_of_forall (fun c hc => ?_)
      (List.length_pos_iff.2 hne) (by simp [Quantifier.most])
    simpa [CharSet.has, Bracketed.has, CharGroup.has, CharGroup.Lists, fewLetters, Member.has,
      Single.value] using h c hc
  exact Language.mem_mul.2 ⟨['^'], hsign (by decide), cs ++ ['$'],
    Language.mem_mul.2 ⟨cs, hletters, ['$'],
      Language.mem_mul.2 ⟨['$'], hsign (by decide), [], rfl, rfl⟩, rfl⟩, rfl⟩

end FacetSet

end Crosswalk
