import Crosswalk.Json.Writer
import Crosswalk.Proofs.Number.Rounding
import Mathlib.Data.List.DropRight

/-!
# Numbers as they are written

`Numeral.valueOf?` is the exact number that a text denotes. The JSON number that is written for it
has that value if it is an integer of 64 bits, and is the nearest floating-point number otherwise;
in particular whole numbers of 53 binary places are always exact.
-/

namespace Crosswalk

namespace Text

theorem trimChars_eq (cs : List Char) :
    trimChars cs = (cs.dropWhile isBlank).rdropWhile isBlank := rfl

theorem trimChars_trimChars (cs : List Char) : trimChars (trimChars cs) = trimChars cs := by
  have hstart : (trimChars cs).dropWhile isBlank = trimChars cs := by
    obtain ⟨rest, hrest⟩ := List.rdropWhile_prefix isBlank (cs.dropWhile isBlank)
    rw [← trimChars_eq] at hrest
    cases ht : trimChars cs with
    | nil => rfl
    | cons c t =>
        rw [ht, List.cons_append] at hrest
        have hc : isBlank c = false := by
          simpa [← hrest] using List.head_dropWhile_not isBlank (l := cs) (by simp [← hrest])
        rw [List.dropWhile_cons_of_neg (by simp [hc])]
  rw [trimChars_eq (trimChars cs), hstart, trimChars_eq, List.rdropWhile_idempotent]

theorem trimChars_of_forall {cs : List Char} (h : ∀ c ∈ cs, isBlank c = false) :
    trimChars cs = cs := by
  have hdrop : ∀ ds : List Char, (∀ c ∈ ds, isBlank c = false) → ds.dropWhile isBlank = ds :=
    fun ds hds => List.dropWhile_eq_self_iff.2 fun hl => by simp [hds _ (List.getElem_mem hl)]
  rw [trimChars_eq, hdrop cs h, List.rdropWhile, hdrop _ (by simpa using h), List.reverse_reverse]

end Text

namespace Numeral

/-- The exact number that a text denotes. -/
def valueOf? (text : String) : Option ℚ := (ofText? text).map value

@[simp] theorem ofText?_trim (text : String) : ofText? (Text.trim text) = ofText? text := by
  simp [ofText?, Text.trim, Text.trimChars_trimChars]

@[simp] theorem valueOf?_trim (text : String) : valueOf? (Text.trim text) = valueOf? text := by
  simp [valueOf?]

/-- Digits behind a sign are a numeral too. -/
theorem ofChars?_of_int? {cs : List Char} {i : ℤ} (h : int? cs = some i) :
    ∃ n, ofChars? cs = some n ∧ n.value = i := by
  unfold int? at h
  unfold ofChars?
  generalize signOf cs = signed at h
  obtain ⟨negative, digits⟩ := signed
  obtain ⟨k, hk, rfl⟩ := Option.map_eq_some_iff.1 h
  unfold nat? at hk
  split_ifs at hk with hdigits
  obtain rfl := Option.some.inj hk
  rw [Bool.or_eq_true, not_or, Bool.not_eq_true, Bool.not_eq_true, Bool.not_eq_false'] at hdigits
  obtain ⟨hne, hall⟩ := hdigits
  have hwhole : digits.takeWhile isDigit = digits :=
    List.takeWhile_eq_self_iff.2 (List.all_eq_true.1 hall)
  have hrest : digits.dropWhile isDigit = [] :=
    List.dropWhile_eq_nil_iff.2 (List.all_eq_true.1 hall)
  refine ⟨⟨negative, natOf digits, 0⟩, by simp [hwhole, hrest, hne, exponent?], ?_⟩
  cases negative <;> simp [value, size]

/-! ### Integers as written -/

theorem digit?_of_isDigit {c : Char} (h : c.isDigit = true) :
    digit? c = some (c.toNat - '0'.toNat) := by
  rw [digit?, if_pos (by simpa [Char.isDigit, Char.le_def] using h)]

theorem isBlank_of_isDigit {c : Char} (h : c.isDigit = true) : Text.isBlank c = false := by
  have hc : 48 ≤ c.toNat ∧ c.toNat ≤ 57 := by
    simpa [Char.isDigit, UInt32.le_iff_toNat_le] using h
  simp [Text.isBlank, Text.blankRanges]
  omega

theorem natOf_toDigits (n : ℕ) : natOf (Nat.toDigits 10 n) = n := by
  conv_rhs => rw [← @Nat.ofDigitChars_ten_toDigits n, Nat.ofDigitChars_eq_foldl]
  refine List.foldl_ext _ _ _ fun k c hc => ?_
  rw [digit?_of_isDigit (Nat.isDigit_of_mem_toDigits (by norm_num) le_rfl hc), Option.getD_some,
    Nat.mul_comm]

theorem nat?_toDigits (n : ℕ) : nat? (Nat.toDigits 10 n) = some n := by
  unfold nat?
  rw [if_neg, natOf_toDigits]
  have hall : ∀ c ∈ Nat.toDigits 10 n, isDigit c = true := fun c hc => by
    simp [isDigit, digit?_of_isDigit (Nat.isDigit_of_mem_toDigits (by norm_num) le_rfl hc)]
  simpa [Nat.toDigits_ne_nil] using hall

theorem signOf_of_isDigit {cs : List Char} (h : ∀ c ∈ cs, c.isDigit = true) :
    signOf cs = (false, cs) := by
  unfold signOf
  split
  · exact absurd (h '-' List.mem_cons_self) (by decide)
  · exact absurd (h '+' List.mem_cons_self) (by decide)
  · rfl

theorem int?_intChars (n : ℤ) : int? (Json.intChars n) = some n := by
  unfold int?
  cases n with
  | ofNat n =>
      have hsign := signOf_of_isDigit fun c hc =>
        Nat.isDigit_of_mem_toDigits (n := n) (by norm_num) le_rfl hc
      simp [Json.intChars, hsign, nat?_toDigits]
  | negSucc n => simp [Json.intChars, signOf, nat?_toDigits, Int.negSucc_eq]

theorem trimChars_intChars (n : ℤ) : Text.trimChars (Json.intChars n) = Json.intChars n := by
  have hdigits : ∀ k : ℕ, ∀ c ∈ Nat.toDigits 10 k, Text.isBlank c = false := fun k c hc =>
    isBlank_of_isDigit (Nat.isDigit_of_mem_toDigits (by norm_num) le_rfl hc)
  refine Text.trimChars_of_forall ?_
  cases n with
  | ofNat n => exact hdigits n
  | negSucc n => exact List.forall_mem_cons.2 ⟨by decide, hdigits (n + 1)⟩

/-- An integer that is written is read back. -/
theorem valueOf?_intChars (n : ℤ) :
    valueOf? (String.ofList (Json.intChars n)) = some (n : ℚ) := by
  obtain ⟨m, hm, hv⟩ := ofChars?_of_int? (int?_intChars n)
  simp [valueOf?, ofText?, trimChars_intChars, hm, hv]

end Numeral

namespace Number

@[simp] theorem ofLexical?_trim (text : String) :
    ofLexical? (Text.trim text) = ofLexical? text := by
  simp [ofLexical?, Text.trim, Text.trimChars_trimChars]

/-- The number that is written for a numeral is the numeral itself or the nearest floating-point
number. -/
theorem of_ofLexical? {text : String} {k : Number} (h : ofLexical? text = some k) :
    ∃ n, Numeral.ofText? text = some n ∧
      (k.value = n.value ∨ ∃ x, k = .float x ∧ n.toDouble? = some x) := by
  unfold ofLexical? ofLexicalChars? at h
  split at h
  · next i hi =>
      obtain rfl := Option.some.inj h
      obtain ⟨n, hn, hv⟩ := Numeral.ofChars?_of_int? (Option.filter_eq_some_iff.1 hi).1
      exact ⟨n, hn, .inl hv.symm⟩
  · obtain ⟨x, hx, rfl⟩ := Option.map_eq_some_iff.1 h
    obtain ⟨n, hn, hx⟩ := Option.bind_eq_some_iff.1 hx
    exact ⟨n, hn, .inr ⟨x, rfl, hx⟩⟩

/-- An integer of 64 bits is written as itself. -/
theorem ofLexical?_intChars {n : ℤ} (h : fits n = true) :
    ofLexical? (String.ofList (Json.intChars n)) = some (.int n) := by
  simp [ofLexical?, ofLexicalChars?, Numeral.trimChars_intChars, Numeral.int?_intChars,
    Option.filter, h]

/-- A text for which an integer is written denotes that integer. -/
theorem valueOf?_of_int {text : String} {n : ℤ} (h : ofLexical? text = some (.int n)) :
    Numeral.valueOf? text = some (n : ℚ) := by
  obtain ⟨m, hm, hv⟩ := of_ofLexical? h
  rcases hv with hv | ⟨x, hx, -⟩
  · exact Option.map_eq_some_iff.2 ⟨m, hm, hv.symm⟩
  · exact Number.noConfusion hx

/-- A numeral with a nearest floating-point number has a JSON number. -/
theorem isSome_ofLexical? {text : String} {n : Numeral} {x : Double}
    (hn : Numeral.ofText? text = some n) (hx : n.toDouble? = some x) :
    (ofLexical? text).isSome := by
  unfold ofLexical? ofLexicalChars?
  split
  · rfl
  · have hchars : Numeral.ofChars? (Text.trimChars text.toList) = some n := hn
    simp [hchars, hx]

/-- A whole number of 53 binary places is written exactly. -/
theorem ofLexical?_of_whole {text : String} {i : ℤ} (h : Numeral.valueOf? text = some (i : ℚ))
    (hi : |i| < 2 ^ 53) : ∃ k, ofLexical? text = some k ∧ k.value = i := by
  obtain ⟨n, hn, hv⟩ := Option.map_eq_some_iff.1 h
  obtain ⟨x, hx, hxv⟩ := Numeral.toDouble?_of_whole hv hi
  obtain ⟨k, hk⟩ := Option.isSome_iff_exists.1 (isSome_ofLexical? hn hx)
  refine ⟨k, hk, ?_⟩
  obtain ⟨m, hm, hkv⟩ := of_ofLexical? hk
  obtain rfl := Option.some.inj (hn.symm.trans hm)
  rcases hkv with hkv | ⟨y, rfl, hy⟩
  · rw [hkv, hv]
  · obtain rfl := Option.some.inj (hx.symm.trans hy)
    exact hxv

end Number

end Crosswalk
