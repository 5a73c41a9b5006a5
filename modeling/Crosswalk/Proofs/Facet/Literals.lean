import Crosswalk.Proofs.Facet.Range
import Crosswalk.Proofs.Facet.Strings

/-!
# Literals that the facets take

A literal is written as a value of its space, beside a schema that judges it like any other value.
Whether that schema accepts it is a question to the facets in effect: as a text, as a truth value,
or as the JSON number that is written for it (`FacetSet.accepts_literal_iff`). A literal of numbers
or truth values that denotes none is written as a text, which no such schema accepts.
-/

namespace Crosswalk

open Check

namespace FacetSet

/-- The facets admit a number as they are written: what is compared with it are the JSON numbers of
the literals, and the range has the ends that it has in the document. -/
structure TakesNumber (s : FacetSet) (space : ValueSpace) (q : ℚ) : Prop where
  holds : space.isNumeric = true
  whole : space = .integer ∨ s.fractionDigits = some 0 → ∃ n : ℤ, q = n
  inside : ∀ lower b k, s.effective space lower = some b → Number.ofLexical? b.lexical = some k →
    Inside lower b.exclusive k.value q
  listed : ∀ values, s.enumeration = some values →
    ∃ literal ∈ values, ∃ k, Number.ofLexical? literal = some k ∧ k.value = q

/-- The facets admit what a literal is written as. -/
def Takes (s : FacetSet) (d : Datatype) (lexical : String) : Prop :=
  if d.space = .boolean then
    ∃ b, ValueSpace.truthValue? lexical = some b ∧ s.Lists .boolean (.truth b)
  else if d.space.isNumeric then
    ∃ k, Number.ofLexical? lexical = some k ∧ s.TakesNumber d.space k.value
  else s.TakesText d lexical

end FacetSet

/-! ### Numbers and truth values -/

theorem Json.same_number {a b : Number} :
    Json.same (.number a) (.number b) = true ↔ a.value = b.value := by
  have hsame : Json.same (.number a) (.number b) = (a.compare b == .eq) := by
    rw [Json.same, Json.agree, Number.same]
  rw [hsame, beq_iff_eq, Number.compare_value, compare_eq_iff_eq]

theorem Json.same_bool {a b : Bool} : Json.same (.bool a) (.bool b) = true ↔ a = b := by
  rw [Json.same, Json.agree, beq_iff_eq]

theorem Json.same_string {a b : String} : Json.same (.string a) (.string b) = true ↔ a = b := by
  rw [Json.same, Json.agree, beq_iff_eq]

/-- What a literal is written as is the same as itself. -/
theorem ValueSpace.same_literal (space : ValueSpace) (lexical : String) :
    (space.literal lexical).same (space.literal lexical) = true := by
  unfold ValueSpace.literal
  split_ifs
  · cases ValueSpace.truthValue? lexical with
    | none => exact Json.same_string.2 rfl
    | some b => exact Json.same_bool.2 rfl
  · cases Number.ofLexical? lexical with
    | none => exact Json.same_string.2 rfl
    | some k => exact Json.same_number.2 rfl
  · exact Json.same_string.2 rfl

theorem Json.same_string_iff {text : String} {value : Json} :
    (Json.string text).same value = true ↔ value = .string text := by
  cases value with
  | string v => rw [Json.same_string, Json.string.injEq, eq_comm]
  | _ => exact iff_of_false Bool.false_ne_true (by simp)

theorem Json.same_bool_iff {b : Bool} {value : Json} :
    (Json.bool b).same value = true ↔ value = .bool b := by
  cases value with
  | bool v => rw [Json.same_bool, Json.bool.injEq, eq_comm]
  | _ => exact iff_of_false Bool.false_ne_true (by simp)

theorem Json.same_number_iff {k : Number} {value : Json} :
    (Json.number k).same value = true ↔ ∃ n, value = .number n ∧ k.value = n.value := by
  cases value with
  | number n => simp [Json.same_number]
  | _ => exact iff_of_false Bool.false_ne_true (by simp)

theorem Number.isWhole_iff {k : Number} : k.isWhole = true ↔ ∃ n : ℤ, k.value = n := by
  have hmultiple : isMultiple k (.int 1) = k.isWhole := by
    cases k with
    | int n => simp [isMultiple, ratioOf, Number.isWhole]
    | float x =>
        have hsigned : (x.signedNumerator % (x.magnitude.2 : ℤ) = 0) ↔
            x.magnitude.1 % x.magnitude.2 = 0 := by
          rw [← Int.dvd_iff_emod_eq_zero, ← Nat.dvd_iff_mod_eq_zero, ← Int.natCast_dvd_natCast,
            Double.signedNumerator]
          split_ifs
          · exact Int.dvd_neg
          · exact Iff.rfl
        rw [Bool.eq_iff_iff]
        simp [isMultiple, ratioOf, Number.isWhole, Double.isWhole, hsigned]
  rw [← hmultiple, Number.isMultiple_iff]
  simp

theorem complaints_typeKeyword_number {space : ValueSpace} (h : space.isNumeric = true)
    {k : Number} : complaints "type" (Datatype.typeKeyword space) (.number k) = [] ↔
      (space = .integer → ∃ n : ℤ, k.value = n) := by
  refine complaintUnless_eq_nil.trans ?_
  rw [← Number.isWhole_iff]
  cases space <;> simp [ValueSpace.isNumeric, Datatype.typeKeyword, typesOf, hasType] at h ⊢

theorem complaints_enum_number {space : ValueSpace} (h : space.isNumeric = true)
    {values : List String} {k : Number} :
    complaints "enum" (.array (values.map space.literal)) (.number k) = [] ↔
      ∃ literal ∈ values, ∃ listed, Number.ofLexical? literal = some listed ∧
        listed.value = k.value := by
  have hboolean : space ≠ .boolean := fun hb => by simp [hb, ValueSpace.isNumeric] at h
  refine complaintUnless_eq_nil.trans ?_
  rw [List.any_map, List.any_eq_true]
  refine exists_congr fun literal => and_congr_right fun _ => ?_
  simp only [Function.comp_apply, ValueSpace.literal, if_neg hboolean, if_pos h]
  cases Number.ofLexical? literal with
  | none =>
      have hdiffer : (Json.number k).same (.string literal) = false := rfl
      simp [hdiffer]
  | some listed =>
      have hsame : (Json.number k).same (.number listed) = true ↔ listed.value = k.value :=
        Json.same_number.trans eq_comm
      simp [hsame]

theorem complaints_enum_bool {values : List String} {b : Bool} :
    complaints "enum" (.array (values.map ValueSpace.boolean.literal)) (.bool b) = [] ↔
      ∃ literal ∈ values, ValueSpace.truthValue? literal = some b := by
  refine complaintUnless_eq_nil.trans ?_
  rw [List.any_map, List.any_eq_true]
  refine exists_congr fun literal => and_congr_right fun _ => ?_
  simp only [Function.comp_apply, ValueSpace.literal, if_true]
  cases ValueSpace.truthValue? literal with
  | none =>
      have hdiffer : (Json.bool b).same (.string literal) = false := rfl
      simp [hdiffer]
  | some t =>
      have hsame : (Json.bool b).same (.bool t) = true ↔ t = b := Json.same_bool.trans eq_comm
      simp [hsame]

section

variable {Home : Type} {follow : Follow Home} {home : Home}

namespace FacetSet

variable (s : FacetSet) {d : Datatype}

/-- A document accepts a number if and only if the facets in effect take it. -/
theorem accepts_takesNumber_iff (hnumeric : d.space.isNumeric = true) {k : Number} :
    Accepts follow home (.number k) (.object (s.keywords d)) ↔ s.TakesNumber d.space k.value := by
  rw [accepts_number_iff, meets_keywords_iff, complaints_typeKeyword_number hnumeric]
  simp only [complaints_enum_number hnumeric]
  constructor
  · rintro ⟨htype, hlisted, hinside, hmultiple⟩
    refine ⟨hnumeric, fun hw => ?_, hinside, hlisted⟩
    by_cases hs : d.space = .integer
    · exact htype hs
    · refine hmultiple ⟨hw.resolve_left hs, ?_⟩
      simpa [ValueSpace.isNumeric, hs] using hnumeric
  · intro h
    exact ⟨fun hs => h.whole (.inl hs), h.listed, h.inside, fun hm => h.whole (.inr hm.1)⟩

theorem accepts_bool_iff (hspace : d.space = .boolean) {b : Bool} :
    Accepts follow home (.bool b) (.object (s.keywords d)) ↔ s.Lists .boolean (.truth b) := by
  rw [accepts_keywords_iff, Lists]
  have hdenotes : ∀ literal, ValueSpace.boolean.Denotes literal (.truth b) ↔
      ValueSpace.truthValue? literal = some b := fun literal => by simp [ValueSpace.Denotes]
  simp only [hdenotes, ← complaints_enum_bool]
  constructor
  · intro h values hv
    have := h.enumeration values hv
    rw [hspace] at this
    exact (Complains.passes_iff fun _ _ _ _ _ _ => rfl).1 this
  · intro h
    have passes : ∀ {member : String × Json}, Complains member.1 →
        complaints member.1 member.2 (.bool b) = [] →
        Passes follow home (.bool b) (s.keywords d) member := fun hk => hk.passes_iff.2
    have pattern : ∀ (whole : Table String Json) (p : String),
        Passes follow home (.bool b) whole ("pattern", .string p) := fun whole p =>
      passes_of_complaints (fun _ => rfl) rfl
    exact {
      type := passes (fun _ _ _ _ _ _ => rfl) (by rw [hspace]; rfl)
      format := fun f _ => passes (fun _ _ _ _ _ _ => rfl) rfl
      encoding := fun e _ => passes (fun _ _ _ _ _ _ => rfl) (by
        by_cases he : e = "base64"
        · rw [he]
          rfl
        · simp [complaints, he])
      minLength := fun n _ => passes (fun _ _ _ _ _ _ => rfl) rfl
      maxLength := fun n _ => passes (fun _ _ _ _ _ _ => rfl) rfl
      patterns := fun p rest _ => ⟨pattern _ p, fun _ => passes_allOf fun schema hs => by
        obtain ⟨r, -, rfl⟩ := List.mem_map.1 hs
        exact accepts_object rfl (List.forall_mem_singleton.2 (pattern _ r))⟩
      enumeration := fun values hv => passes (fun _ _ _ _ _ _ => rfl) (by
        rw [hspace]
        exact h values hv)
      lower := fun e _ k _ => by split_ifs <;> exact passes (fun _ _ _ _ _ _ => rfl) rfl
      upper := fun e _ k _ => by split_ifs <;> exact passes (fun _ _ _ _ _ _ => rfl) rfl
      whole := fun _ => passes (fun _ _ _ _ _ _ => rfl) rfl }

/-- A document accepts what a literal is written as, and every value that is the same, if and only
if the facets in effect take the literal. -/
theorem accepts_literal_iff {lexical : String} {value : Json}
    (hsame : (d.space.literal lexical).same value = true) :
    Accepts follow home value (.object (s.keywords d)) ↔ s.Takes d lexical := by
  have untaken : d.space.holdsText = false → Json.string lexical = value →
      ¬ Accepts follow home value (.object (s.keywords d)) := by
    rintro hholds rfl h
    exact Bool.false_ne_true (hholds.symm.trans ((accepts_string_iff s lexical).1 h).holds)
  unfold Takes
  unfold ValueSpace.literal at hsame
  split_ifs at hsame ⊢ with hboolean hnumeric
  · cases hread : ValueSpace.truthValue? lexical with
    | none =>
        rw [hread] at hsame
        refine iff_of_false (untaken ?_ (Json.same_string_iff.1 hsame).symm) (by simp)
        simp [ValueSpace.holdsText, hboolean]
    | some b =>
        rw [hread] at hsame
        rw [Json.same_bool_iff.1 hsame, accepts_bool_iff s hboolean]
        simp
  · cases hread : Number.ofLexical? lexical with
    | none =>
        rw [hread] at hsame
        refine iff_of_false (untaken ?_ (Json.same_string_iff.1 hsame).symm) (by simp)
        simp [ValueSpace.holdsText, hnumeric]
    | some k =>
        rw [hread] at hsame
        obtain ⟨n, rfl, hvalue⟩ := Json.same_number_iff.1 hsame
        rw [accepts_takesNumber_iff s hnumeric, ← hvalue]
        simp
  · rw [Json.same_string_iff.1 hsame, accepts_string_iff]

/-! ### Datatypes without facets -/

theorem withPatterns_toList (t : Table String Json) (pattern : Option String) :
    withPatterns t pattern.toList = Datatype.withKeyword t "pattern" (pattern.map .string) := by
  cases pattern <;> rfl

/-- The limits of the datatypes are bounds. -/
theorem isSome_limits : ∀ d ∈ Datatype.all, ∀ text ∈ d.least.toList ++ d.greatest.toList,
    (Bound.ofText? text false).isSome = true := by
  decide +kernel

theorem withBound_limit (t : Table String Json) (names : String × String) {limit : Option String}
    (h : ∀ text ∈ limit.toList, (Bound.ofText? text false).isSome = true) :
    withBound t names (limit.bind (Bound.ofText? · false)) =
      Datatype.withKeyword t names.1 ((limit.bind Number.ofLexical?).map .number) := by
  cases limit with
  | none => rfl
  | some text =>
      obtain ⟨b, hb⟩ := Option.isSome_iff_exists.1 (h text (List.mem_singleton_self _))
      obtain ⟨hlexical, hexclusive, -⟩ := Bound.of_ofText? hb
      simp [withBound, hb, hlexical, hexclusive]

/-- A datatype has the same keywords whether or not it is taken as a type with facets. -/
theorem keywords_ofDatatype (hd : d ∈ Datatype.all) :
    (ofDatatype d).keywords d = d.fullKeywords := by
  have hlimits := isSome_limits d hd
  have hleast : (ofDatatype d).effectiveLower d.space = d.least.bind (Bound.ofText? · false) := by
    cases hl : d.least <;> simp [effectiveLower, digitBounds, narrower, ofDatatype, hl]
  have hgreatest : (ofDatatype d).effectiveUpper d.space =
      d.greatest.bind (Bound.ofText? · false) := by
    cases hl : d.greatest <;> simp [effectiveUpper, digitBounds, narrower, ofDatatype, hl]
  rw [keywords, hleast, hgreatest,
    withBound_limit _ _ fun text ht => hlimits text (List.mem_append_left _ ht),
    withBound_limit _ _ fun text ht => hlimits text (List.mem_append_right _ ht)]
  exact congrArg (fun t => Datatype.withKeyword (Datatype.withKeyword t "minimum" _) "maximum" _)
    (withPatterns_toList _ _)

end FacetSet

end

end Crosswalk
