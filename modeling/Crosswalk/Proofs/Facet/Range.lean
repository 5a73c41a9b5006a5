import Crosswalk.Proofs.Facet.Bound
import Crosswalk.Proofs.Facet.Keywords

/-!
# The range of a type with numbers

In a document the range has an end on each side, `FacetSet.effective`. It is the stated one, unless
the power of ten that the digit counts imply lies within it (`FacetSet.effective_eq`).
`Bound.IsWritten` says that a bound is written with its exact value; powers of ten are. `Meets` is
what the keywords of the range ask of any rational number, and `Meets.iff_complaints` says that
checks do so.
-/

namespace Crosswalk

open Check

/-! ### Keywords about numbers -/

/-- The number meets a keyword about numbers. -/
def Meets (q : ℚ) : String × Json → Prop
  | ("minimum", .number k) => k.value ≤ q
  | ("exclusiveMinimum", .number k) => k.value < q
  | ("maximum", .number k) => q ≤ k.value
  | ("exclusiveMaximum", .number k) => q < k.value
  | ("multipleOf", .number k) => ∃ m : ℤ, q = m * k.value
  | _ => True

/-- The keywords about numbers. -/
def rangeKeywords : List String :=
  ["minimum", "exclusiveMinimum", "maximum", "exclusiveMaximum", "multipleOf"]

theorem Number.isMultiple_iff (a b : Number) :
    isMultiple a b = true ↔ ∃ m : ℤ, a.value = m * b.value := by
  have ha : (0 : ℚ) < (ratioOf a).2 := by exact_mod_cast ratioOf_pos a
  have hb : (0 : ℚ) < (ratioOf b).2 := by exact_mod_cast ratioOf_pos b
  have hdvd : isMultiple a b = true ↔
      (ratioOf b).1 * (ratioOf a).2 ∣ (ratioOf a).1 * (ratioOf b).2 := by
    rw [Int.dvd_iff_emod_eq_zero]
    exact beq_iff_eq
  rw [hdvd, value_eq_ratioOf, value_eq_ratioOf]
  refine exists_congr fun m => ?_
  rw [← mul_div_assoc, div_eq_div_iff ha.ne' hb.ne', ← @Int.cast_inj ℚ]
  push_cast
  rw [show ((ratioOf b).1 : ℚ) * (ratioOf a).2 * m = m * (ratioOf b).1 * (ratioOf a).2 by ring]

/-- A check of a JSON number has complaints unless the number meets the keyword. -/
theorem Meets.iff_complaints {name : String} (hn : name ∈ rangeKeywords) (bound : Json)
    (a : Number) : complaints name bound (.number a) = [] ↔ Meets a.value (name, bound) := by
  have hcompare : ∀ (k : Number) (holds : Ordering → Bool) (c : Json → Number → Complaint),
      numberComplaints (.number a) (.number k) holds c = [] ↔
        holds (Ord.compare a.value k.value) = true := fun k holds c => by
    rw [← Number.compare_value]
    exact complaintUnless_eq_nil
  simp only [rangeKeywords, List.mem_cons, List.not_mem_nil, or_false] at hn
  cases bound
  case number k =>
    rcases hn with rfl | rfl | rfl | rfl | rfl
    · exact (hcompare k (· != .lt) (.below · false)).trans (by simp [Meets, compare_lt_iff_lt])
    · exact (hcompare k (· == .gt) (.below · true)).trans (by simp [Meets, compare_gt_iff_gt])
    · exact (hcompare k (· != .gt) (.above · false)).trans (by simp [Meets, compare_gt_iff_gt])
    · exact (hcompare k (· == .lt) (.above · true)).trans (by simp [Meets, compare_lt_iff_lt])
    · exact complaintUnless_eq_nil.trans (Number.isMultiple_iff a k)
  all_goals rcases hn with rfl | rfl | rfl | rfl | rfl <;> exact ⟨fun _ => trivial, fun _ => rfl⟩

theorem complains_of_mem_rangeKeywords {name : String} (hn : name ∈ rangeKeywords) :
    Complains name := by
  simp only [rangeKeywords, List.mem_cons, List.not_mem_nil, or_false] at hn
  rcases hn with rfl | rfl | rfl | rfl | rfl <;> exact fun _ _ _ _ _ _ => rfl

section

variable {Home : Type} {follow : Follow Home} {home : Home} {a : Number}

/-- A JSON number that a schema accepts meets its keywords about numbers. -/
theorem Meets.of_accepts {fields : Table String Json} (hr : reference? fields = none)
    (h : Accepts follow home (.number a) (.object fields)) : ∀ member ∈ fields,
      Meets a.value member := by
  rintro ⟨name, bound⟩ hm
  by_cases hn : name ∈ rangeKeywords
  · have hpasses := (accepts_object_iff hr).1 h _ hm
    exact (iff_complaints hn bound a).1
      ((Complains.passes_iff (complains_of_mem_rangeKeywords hn)).1 hpasses)
  · simp only [rangeKeywords, List.mem_cons, List.not_mem_nil, or_false, not_or] at hn
    unfold Meets
    split <;> simp_all

/-- A JSON number is accepted if and only if it is of the type, is listed, and meets the keywords
about numbers. -/
theorem FacetSet.accepts_number_iff (s : FacetSet) (d : Datatype) :
    Accepts follow home (.number a) (.object (s.keywords d)) ↔
      complaints "type" (Datatype.typeKeyword d.space) (.number a) = [] ∧
      (∀ values, s.enumeration = some values →
        complaints "enum" (.array (values.map d.space.literal)) (.number a) = []) ∧
      ∀ member ∈ s.keywords d, Meets a.value member := by
  have htype : Complains "type" := fun _ _ _ _ _ _ => rfl
  have henum : Complains "enum" := fun _ _ _ _ _ _ => rfl
  have hpattern : ∀ (whole : Table String Json) (p : String),
      Passes follow home (.number a) whole ("pattern", .string p) := fun whole p =>
    passes_of_complaints (fun _ => rfl) rfl
  constructor
  · intro h
    have hkeywords := (accepts_keywords_iff s d).1 h
    exact ⟨htype.passes_iff.1 hkeywords.type,
      fun values hv => henum.passes_iff.1 (hkeywords.enumeration values hv),
      Meets.of_accepts (reference?_keywords s d) h⟩
  · rintro ⟨ht, hv, hm⟩
    have hmeets := (forall_mem_keywords_iff _ s d).1 hm
    have hrange : ∀ {name : String} {bound : Json}, name ∈ rangeKeywords →
        Meets a.value (name, bound) →
        Passes follow home (.number a) (s.keywords d) (name, bound) := fun hn h =>
      (Complains.passes_iff (complains_of_mem_rangeKeywords hn)).2
        ((Meets.iff_complaints hn _ a).2 h)
    refine (accepts_keywords_iff s d).2 {
      type := htype.passes_iff.2 ht
      format := fun f _ => passes_of_complaints (fun _ => rfl) rfl
      encoding := fun e _ => passes_of_complaints (fun _ => rfl) ?_
      minLength := fun n _ => passes_of_complaints (fun _ => rfl) rfl
      maxLength := fun n _ => passes_of_complaints (fun _ => rfl) rfl
      patterns := fun p rest _ => ⟨hpattern _ p, fun _ => passes_allOf ?_⟩
      enumeration := fun values h => henum.passes_iff.2 (hv values h)
      lower := fun b hb k hk => hrange ?_ (hmeets.lower b hb k hk)
      upper := fun b hb k hk => hrange ?_ (hmeets.upper b hb k hk)
      whole := fun h => hrange (by decide) (hmeets.whole h) }
    · by_cases he : e = "base64"
      · rw [he]
        rfl
      · simp [complaints, he]
    · intro schema hs
      obtain ⟨r, -, rfl⟩ := List.mem_map.1 hs
      exact accepts_object rfl (List.forall_mem_singleton.2 (hpattern _ r))
    · split_ifs <;> decide
    · split_ifs <;> decide

end

/-- The bound is read from the value, and written as that value exactly. -/
def Bound.IsWritten (b : Bound) (v : ℚ) : Prop :=
  b.Reads v ∧ ∃ k, Number.ofLexical? b.lexical = some k ∧ k.value = v

/-- Bounds that are read have a JSON number. -/
theorem Bound.Reads.exists_number {b : Bound} {v : ℚ} (h : b.Reads v) :
    ∃ k, Number.ofLexical? b.lexical = some k := by
  obtain ⟨n, hn, hx, -⟩ := h
  exact Option.isSome_iff_exists.1 (Number.isSome_ofLexical? hn hx)

/-- The power of ten that so many digits before the point stay inside of. -/
def powerEnd (lower : Bool) (magnitude : ℕ) : ℤ :=
  if lower then -10 ^ magnitude else 10 ^ magnitude

theorem inside_powerEnd_iff {magnitude : ℕ} {q : ℚ} :
    (∀ lower, Inside lower true (powerEnd lower magnitude) q) ↔ |q| < 10 ^ magnitude := by
  rw [abs_lt, Bool.forall_bool, and_comm]
  simp [Inside, powerEnd]

theorem Number.fits_powerEnd (lower : Bool) {magnitude : ℕ} (h : magnitude ≤ 18) :
    Number.fits (powerEnd lower magnitude) = true := by
  have hle : (10 : ℤ) ^ magnitude ≤ 10 ^ 18 := pow_le_pow_right₀ (by norm_num) h
  have hpos : (0 : ℤ) < 10 ^ magnitude := by positivity
  unfold Number.fits powerEnd
  simp only [Nat.pow_eq, Bool.and_eq_true, decide_eq_true_eq]
  cases lower <;> simp <;> constructor <;> linarith

/-- A power of ten with its exponent in the range of digit counts is a bound. -/
theorem Bound.exists_of_powerEnd (lower : Bool) {magnitude : ℕ} (h : magnitude ≤ 18) :
    ∃ b, Bound.ofText? (String.ofList (Json.intChars (powerEnd lower magnitude))) true = some b ∧
      b.exclusive = true ∧ b.IsWritten (powerEnd lower magnitude) := by
  obtain ⟨n, hn, hv⟩ := Option.map_eq_some_iff.1
    (Numeral.valueOf?_intChars (powerEnd lower magnitude))
  have hsize : n.size < 10 ^ 240 := by
    have hpower : (powerEnd lower magnitude).natAbs = 10 ^ magnitude := by
      cases lower <;> simp [powerEnd, Int.natAbs_pow]
    rw [Numeral.size_of_value hv, hpower]
    exact_mod_cast Nat.pow_lt_pow_right (by norm_num) (h.trans_lt (by norm_num))
  obtain ⟨x, hx⟩ := Option.isSome_iff_exists.1 (Numeral.isSome_toDouble? hsize)
  have hb : Bound.ofText? (String.ofList (Json.intChars (powerEnd lower magnitude))) true =
      some ⟨Text.trim (String.ofList (Json.intChars (powerEnd lower magnitude))), x, true⟩ := by
    rw [ofText?, hn, Option.bind_some, hx]
    rfl
  obtain ⟨-, -, v, hv', hreads⟩ := Bound.of_ofText? hb
  obtain rfl := Option.some.inj (hv'.symm.trans (Numeral.valueOf?_intChars _))
  refine ⟨_, hb, rfl, hreads, .int (powerEnd lower magnitude), ?_, rfl⟩
  rw [Number.ofLexical?_trim]
  exact Number.ofLexical?_intChars (Number.fits_powerEnd lower h)

namespace FacetSet

variable (s : FacetSet) (space : ValueSpace)

/-- The digits before the point that the digit counts allow. -/
def magnitude? : Option ℕ :=
  s.totalDigits.map fun total =>
    if space = .integer then total else total - min (s.fractionDigits.getD 0) total

/-- The end of the range that the digit counts imply. -/
def implied (lower : Bool) : Option Bound :=
  (s.digitBounds space).map fun ends => if lower then ends.1 else ends.2

/-- The end of the range in a document. -/
def effective (lower : Bool) : Option Bound :=
  if lower then s.effectiveLower space else s.effectiveUpper space

variable {s space}

theorem exists_implied {magnitude : ℕ} (h : s.magnitude? space = some magnitude)
    (hm : magnitude ≤ 18) (lower : Bool) :
    ∃ b, s.implied space lower = some b ∧ b.exclusive = true ∧
      b.IsWritten (powerEnd lower magnitude) := by
  obtain ⟨b, hb, he, hw⟩ := Bound.exists_of_powerEnd false hm
  obtain ⟨b', hb', he', hw'⟩ := Bound.exists_of_powerEnd true hm
  obtain ⟨total, htotal, rfl⟩ := Option.map_eq_some_iff.1 h
  have hbounds : s.digitBounds space = some (b', b) := by
    simp only [powerEnd, Bool.false_eq_true, if_false, if_true] at hb hb'
    simp only [digitBounds, htotal, Option.bind_eq_bind, Option.bind_some, greatestMagnitude,
      if_neg (not_lt.2 hm), gt_iff_lt, Nat.pow_eq]
    push_cast
    rw [hb, Option.bind_some, hb', Option.bind_some]
    rfl
  cases lower
  · exact ⟨b, by rw [implied, hbounds]; rfl, he, hw⟩
  · exact ⟨b', by rw [implied, hbounds]; rfl, he', hw'⟩

theorem magnitude?_of_implied {lower : Bool} {b : Bound} (h : s.implied space lower = some b) :
    ∃ magnitude ≤ 18, s.magnitude? space = some magnitude := by
  obtain ⟨ends, hends, -⟩ := Option.map_eq_some_iff.1 h
  unfold digitBounds at hends
  obtain ⟨total, htotal, hends⟩ := Option.bind_eq_some_iff.1 hends
  have hmagnitude : s.magnitude? space = some (if space = .integer then total
      else total - min (s.fractionDigits.getD 0) total) := by rw [magnitude?, htotal]; rfl
  refine ⟨_, ?_, hmagnitude⟩
  by_contra hm
  dsimp only at hends
  rw [if_pos (show _ > greatestMagnitude from not_le.1 hm)] at hends
  cases hends

theorem effective_eq (lower : Bool) : s.effective space lower =
    (s.implied space lower).elim ((Aspect.bound lower).get s)
      (tighten (boundWithin lower) ((Aspect.bound lower).get s)) := by
  unfold effective effectiveLower effectiveUpper implied
  cases s.digitBounds space with
  | none =>
      cases lower
      · cases hs : s.upper <;> simp [narrower, Aspect.bound, hs]
      · cases hs : s.lower <;> simp [narrower, Aspect.bound, hs]
  | some ends =>
      cases lower
      · cases hs : s.upper <;> simp [narrower, tighten, Aspect.bound, boundWithin, hs]
      · cases hs : s.lower <;> simp [narrower, tighten, Aspect.bound, boundWithin, hs]

/-- The end in a document is the stated one or the implied one, and the stated one stays only if the
implied one does not lie within it. -/
theorem effective_cases (lower : Bool) :
    (s.implied space lower = none ∧ s.effective space lower = (Aspect.bound lower).get s) ∨
      ∃ b, s.implied space lower = some b ∧ (s.effective space lower = some b ∨
        ∃ e, (Aspect.bound lower).get s = some e ∧ s.effective space lower = some e ∧
          boundWithin lower b e = false) := by
  rw [effective_eq]
  cases s.implied space lower with
  | none => exact .inl ⟨rfl, rfl⟩
  | some b =>
      refine .inr ⟨b, rfl, ?_⟩
      cases (Aspect.bound lower).get s with
      | none => exact .inl rfl
      | some e =>
          cases hw : boundWithin lower b e
          · exact .inr ⟨e, rfl, by simp [tighten, hw], hw⟩
          · exact .inl (by simp [tighten, hw])

/-- The keywords about numbers are those of the two ends, and the one of whole numbers. -/
theorem meets_keywords_iff {d : Datatype} {q : ℚ} : (∀ member ∈ s.keywords d, Meets q member) ↔
    (∀ lower b k, s.effective d.space lower = some b → Number.ofLexical? b.lexical = some k →
      Inside lower b.exclusive k.value q) ∧
    (s.fractionDigits = some 0 ∧ d.space = .decimal → ∃ m : ℤ, q = m) := by
  have hlower : ∀ (b : Bound) (k : Number), Inside true b.exclusive k.value q ↔
      Meets q (if b.exclusive then "exclusiveMinimum" else "minimum", .number k) := by
    intro b k
    cases b.exclusive <;> exact Iff.rfl
  have hupper : ∀ (b : Bound) (k : Number), Inside false b.exclusive k.value q ↔
      Meets q (if b.exclusive then "exclusiveMaximum" else "maximum", .number k) := by
    intro b k
    cases b.exclusive <;> exact Iff.rfl
  have hwhole : (∃ m : ℤ, q = m) ↔ Meets q ("multipleOf", .nat 1) :=
    exists_congr fun m => by simp
  rw [forall_mem_keywords_iff, hwhole]
  constructor
  · intro h
    refine ⟨fun lower b k hb hk => ?_, h.whole⟩
    cases lower
    · exact (hupper b k).2 (h.upper b hb k hk)
    · exact (hlower b k).2 (h.lower b hb k hk)
  · rintro ⟨hends, hmultiple⟩
    exact {
      type := trivial
      format := fun _ _ => trivial
      encoding := fun _ _ => trivial
      minLength := fun _ _ => trivial
      maxLength := fun _ _ => trivial
      patterns := fun _ _ _ => ⟨trivial, fun _ => trivial⟩
      enumeration := fun _ _ => trivial
      lower := fun b hb k hk => (hlower b k).1 (hends true b k hb hk)
      upper := fun b hb k hk => (hupper b k).1 (hends false b k hb hk)
      whole := hmultiple }

end FacetSet

end Crosswalk
