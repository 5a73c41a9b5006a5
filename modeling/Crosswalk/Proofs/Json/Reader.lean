import Crosswalk.Json.Reader
import Crosswalk.Json.Writer
import Crosswalk.Proofs.Number.Lexical
import Mathlib.Tactic.IntervalCases

/-!
# Reading what was written

The reader on the texts that the writer makes. Each character of a string is read back from its
escape, and the digits of an integer of 64 bits are read as that integer. Whoever reads the values
in a container reads the container, for the reader goes through the texts between separators one by
one. A value ends where the text ends or where the container goes on or is closed, and what comes
behind it is left as it is, so that the statements hold for any rest.
-/

namespace Crosswalk

namespace Json

namespace Reader

/-! ### Strings -/

theorem stringBody_quote (read rest : List Char) :
    stringBody read ('"' :: rest) = some (String.ofList read.reverse, rest) := by
  rw [stringBody.eq_def]
  rfl

theorem stringBody_plain {c : Char} (hq : c ≠ '"') (hb : c ≠ '\\') (hc : ¬ c < ' ')
    (read rest : List Char) : stringBody read (c :: rest) = stringBody (c :: read) rest := by
  rw [stringBody.eq_def]
  simp only [hq, hb, hc, if_false]

theorem stringBody_short {c e : Char} (he : e ≠ 'u') (h : shortEscape? e = some c)
    (read rest : List Char) : stringBody read ('\\' :: e :: rest) = stringBody (c :: read) rest := by
  rw [stringBody.eq_def]
  simp [he, h]

theorem stringBody_unit {a b c d : Char} {n : ℕ} (h : codeUnit? a b c d = some n)
    (hn : n < 0xD800) (read rest : List Char) :
    stringBody read ('\\' :: 'u' :: a :: b :: c :: d :: rest) =
      stringBody (Char.ofNat n :: read) rest := by
  rw [stringBody.eq_def]
  simp [h, show ¬ 0xD800 ≤ n by omega, show ¬ 0xDC00 ≤ n by omega]

theorem hexDigit?_hexChar {n : ℕ} (h : n < 16) : hexDigit? (hexChar n) = some n := by
  interval_cases n <;> rfl

theorem codeUnit?_hexChar {n : ℕ} (h : n < 256) :
    codeUnit? '0' '0' (hexChar (n / 16)) (hexChar (n % 16)) = some n := by
  have hzero : hexDigit? '0' = some 0 := rfl
  rw [codeUnit?, hzero, hexDigit?_hexChar (by omega), hexDigit?_hexChar (by omega)]
  simp only [Option.bind_eq_bind, Option.bind_some, Option.pure_def, Option.some.injEq]
  omega

/-- Each character is read back from what it is written as. -/
theorem stringBody_escapeChar (c : Char) (read rest : List Char) :
    stringBody read (escapeChar c ++ rest) = stringBody (c :: read) rest := by
  unfold escapeChar
  split_ifs with hq hb h1 h2 h3 h4 h5 hlt
  · exact hq ▸ stringBody_short (e := '"') (by decide) rfl read rest
  · exact hb ▸ stringBody_short (e := '\\') (by decide) rfl read rest
  · exact h1 ▸ stringBody_short (by decide) rfl read rest
  · exact h2 ▸ stringBody_short (by decide) rfl read rest
  · exact h3 ▸ stringBody_short (by decide) rfl read rest
  · exact h4 ▸ stringBody_short (by decide) rfl read rest
  · exact h5 ▸ stringBody_short (by decide) rfl read rest
  · have hn : c.toNat < 32 := hlt
    have hunit := stringBody_unit (codeUnit?_hexChar (n := c.toNat) (by omega)) (by omega) read rest
    rwa [Char.ofNat_toNat] at hunit
  · exact stringBody_plain hq hb hlt read rest

/-- A string is read back, up to the quote that ends it. -/
theorem stringBody_append (s read rest : List Char) :
    stringBody read (s.flatMap escapeChar ++ '"' :: rest) =
      some (String.ofList (read.reverse ++ s), rest) := by
  induction s generalizing read with
  | nil => simp [stringBody_quote]
  | cons c s ih =>
      rw [List.flatMap_cons, List.append_assoc, stringBody_escapeChar, ih]
      simp

/-! ### Integers -/

/-- What a value may be followed by: the end of the text, or what goes on in a container. -/
def EndsValue (rest : List Char) : Prop := ∀ c ∈ rest.head?, c = ',' ∨ c = ']' ∨ c = '\x7d'

theorem digit?_of_isDigit {c : Char} (h : c.isDigit = true) :
    digit? c = some (c.toNat - '0'.toNat) := Numeral.digit?_of_isDigit h

theorem le_ofDigitChars (ds : List Char) (n : ℕ) : n ≤ Nat.ofDigitChars 10 ds n := by
  induction ds generalizing n with
  | nil => simp
  | cons c ds ih =>
      rw [Nat.ofDigitChars_cons]
      exact le_trans (by omega) (ih _)

/-- Digits are taken as long as the number they make fits 64 bits. -/
theorem takeDigits_append {ds : List Char} (hds : ∀ c ∈ ds, c.isDigit = true)
    (value count : ℕ) (h : Nat.ofDigitChars 10 ds value < Nat.pow 2 64) (rest : List Char) :
    takeDigits value count (ds ++ rest) =
      takeDigits (Nat.ofDigitChars 10 ds value) (count + ds.length) rest := by
  induction ds generalizing value count with
  | nil => simp
  | cons c ds ih =>
      rw [List.forall_mem_cons] at hds
      rw [Nat.ofDigitChars_cons] at h ⊢
      have hlt := (le_ofDigitChars ds _).trans_lt h
      rw [Nat.mul_comm 10 value] at h hlt ⊢
      rw [List.cons_append, takeDigits, digit?_of_isDigit hds.1]
      simp only [hlt, if_true]
      rw [ih hds.2 _ _ h, List.length_cons, Nat.add_right_comm, Nat.add_assoc]

theorem EndsValue.digit? {c : Char} {rest : List Char} (h : EndsValue (c :: rest)) :
    digit? c = none := by
  obtain rfl | rfl | rfl := h c rfl <;> rfl

theorem EndsValue.takeDigits {rest : List Char} (h : EndsValue rest) (value count : ℕ) :
    takeDigits value count rest = (value, count, rest) := by
  cases rest with
  | nil => rfl
  | cons c rest => rw [Reader.takeDigits, h.digit?]

theorem EndsValue.skipDigits {rest : List Char} (h : EndsValue rest) (count : ℕ) :
    skipDigits count rest = (count, rest) := by
  cases rest with
  | nil => rfl
  | cons c rest =>
      rw [Reader.skipDigits, h.digit?]
      rfl

theorem EndsValue.startsWithDigit {rest : List Char} (h : EndsValue rest) :
    startsWithDigit rest = false := by
  cases rest with
  | nil => rfl
  | cons c rest =>
      rw [Reader.startsWithDigit, h.digit?]
      rfl

/-- The first digit of a number is zero only if it is the only one. -/
theorem head?_toDigits (n : ℕ) : (Nat.toDigits 10 n).head? = some '0' ↔ n = 0 := by
  induction n using Nat.strongRecOn with
  | _ n ih =>
      rcases lt_or_ge n 10 with h | h
      · rw [Nat.toDigits_of_lt_base h]
        interval_cases n <;> simp [Nat.digitChar]
      · rw [Nat.toDigits_of_base_le (by decide) h, List.head?_append_of_ne_nil _ Nat.toDigits_ne_nil,
          ih _ (by omega)]
        omega

/-- The digits of a number of 64 bits are read as one significand, with no fraction and no exponent
behind it. -/
theorem unsigned_toDigits (negative : Bool) {n : ℕ} (hn : n < Nat.pow 2 64) {rest : List Char}
    (h : EndsValue rest) :
    unsigned negative (Nat.toDigits 10 n ++ rest) =
      (wholeNumber? negative n).map (·, rest) := by
  have hdigits : ∀ c ∈ Nat.toDigits 10 n, c.isDigit = true := fun c hc =>
    Nat.isDigit_of_mem_toDigits (by decide) le_rfl hc
  have hvalue : Nat.ofDigitChars 10 (Nat.toDigits 10 n) 0 = n := Nat.ofDigitChars_ten_toDigits
  have htake := takeDigits_append hdigits 0 0 (by rwa [hvalue]) rest
  rw [hvalue, h.takeDigits] at htake
  have hhead := head?_toDigits n
  obtain ⟨d, ds, hds⟩ := List.exists_cons_of_ne_nil (Nat.toDigits_ne_nil (b := 10) (n := n))
  have hzero : d = '0' → ds = [] := by
    rintro rfl
    obtain rfl := hhead.1 (by rw [hds]; rfl)
    exact (List.cons.inj hds).2.symm
  have hstart : startsWithDigit (Nat.toDigits 10 n ++ rest) = true := by
    rw [hds, List.cons_append, startsWithDigit,
      digit?_of_isDigit (hdigits d (hds ▸ List.mem_cons_self))]
    rfl
  have hplain : ∀ c ∈ rest.head?, c ≠ '.' ∧ c ≠ 'e' ∧ c ≠ 'E' := by
    intro c hc
    obtain rfl | rfl | rfl := h c hc <;> decide
  unfold unsigned
  simp only [hstart, htake, h.skipDigits, Bool.not_true, Bool.false_or]
  rw [if_neg]
  · split
    · exact absurd rfl (hplain '.' rfl).1
    · exact absurd rfl (hplain 'e' rfl).2.1
    · exact absurd rfl (hplain 'E' rfl).2.2
    · rfl
  · rw [Bool.not_eq_true]
    split
    · next heq =>
        rw [hds, List.cons_append, List.cons.injEq] at heq
        obtain ⟨hd, rfl⟩ := heq
        rw [hzero hd]
        exact h.startsWithDigit
    · rfl

theorem scalar_of_isDigit {c : Char} (h : c.isDigit = true) (rest : List Char) :
    scalar (c :: rest) = unsigned false (c :: rest) := by
  unfold scalar
  split
  all_goals first
    | next heq => exact absurd (List.cons.inj heq).1 (by rintro rfl; exact absurd h (by decide))
    | rfl

/-- An integer of 64 bits, signed or unsigned, is read back. -/
theorem scalar_intChars {n : ℤ} (hn : Number.fits n = true) {rest : List Char}
    (h : EndsValue rest) : scalar (intChars n ++ rest) = some (.int n, rest) := by
  simp only [Number.fits, Bool.and_eq_true, decide_eq_true_eq] at hn
  cases n with
  | ofNat n =>
      have hlt : n < Nat.pow 2 64 := Int.ofNat_lt.1 hn.2
      have hdigits : ∀ c ∈ Nat.toDigits 10 n, c.isDigit = true := fun c hc =>
        Nat.isDigit_of_mem_toDigits (by decide) le_rfl hc
      have hread := unsigned_toDigits false hlt h
      obtain ⟨d, ds, hds⟩ := List.exists_cons_of_ne_nil (Nat.toDigits_ne_nil (b := 10) (n := n))
      change scalar (Nat.toDigits 10 n ++ rest) = _
      rw [hds] at hread hdigits ⊢
      rw [List.cons_append, scalar_of_isDigit (hdigits d List.mem_cons_self)]
      exact hread
  | negSucc n =>
      have hle : n + 1 ≤ Nat.pow 2 63 := by
        have := hn.1
        omega
      have hpow : Nat.pow 2 63 < Nat.pow 2 64 := by decide
      have hread := unsigned_toDigits true (lt_of_le_of_lt hle hpow) h
      change unsigned true (Nat.toDigits 10 (n + 1) ++ rest) = _
      rw [hread, wholeNumber?, if_pos rfl, if_neg (by omega)]
      rfl

/-! ### Containers -/

theorem skipBlanks_cons {c : Char} (h : isBlank c = false) (cs : List Char) :
    skipBlanks (c :: cs) = c :: cs := by
  rw [skipBlanks, List.dropWhile_cons_of_neg (by simp [h])]

/-- How a value begins: not with a blank, and not with what ends a container. -/
def BeginsValue (cs : List Char) : Prop :=
  ∃ c rest, cs = c :: rest ∧ isBlank c = false ∧ c ≠ ']' ∧ c ≠ '\x7d'

theorem BeginsValue.skipBlanks {cs : List Char} (h : BeginsValue cs) (rest : List Char) :
    skipBlanks (cs ++ rest) = cs ++ rest := by
  obtain ⟨c, cs, rfl, hc, -⟩ := h
  exact skipBlanks_cons hc _

theorem endsValue_comma (rest : List Char) : EndsValue (',' :: rest) :=
  fun _ hc => .inl (Option.mem_some.1 hc).symm

theorem endsValue_bracket (rest : List Char) : EndsValue (']' :: rest) :=
  fun _ hc => .inr (.inl (Option.mem_some.1 hc).symm)

theorem endsValue_brace (rest : List Char) : EndsValue ('\x7d' :: rest) :=
  fun _ hc => .inr (.inr (Option.mem_some.1 hc).symm)

section

variable {read? : List Char → Option (Json × List Char)} {text : Json → List Char}
  {p : Json → Prop} [DecidablePred p] {f : Json → Json}

/-- The text of a value is read, whatever follows it, as the value that `f` makes of it if the value
has `p`, and it is refused otherwise. -/
def Reads (read? : List Char → Option (Json × List Char)) (text : Json → List Char)
    (p : Json → Prop) [DecidablePred p] (f : Json → Json) (x : Json) : Prop :=
  BeginsValue (text x) ∧ ∀ rest, EndsValue rest →
    read? (text x ++ rest) = if p x then some (f x, rest) else none

theorem items_comma {x : Json} (h : Reads read? text p f x) (steps : ℕ) (read : List Json)
    (rest : List Char) : items read? (steps + 1) read (text x ++ ',' :: rest) =
      if p x then items read? steps (f x :: read) rest else none := by
  rw [items, h.1.skipBlanks, h.2 _ (endsValue_comma rest)]
  by_cases hx : p x
  · simp only [hx, if_true, skipBlanks_cons (c := ',') rfl]
  · simp only [hx, if_false]

theorem items_bracket {x : Json} (h : Reads read? text p f x) (steps : ℕ) (read : List Json)
    (rest : List Char) : items read? (steps + 1) read (text x ++ ']' :: rest) =
      if p x then some ((f x :: read).reverse, rest) else none := by
  rw [items, h.1.skipBlanks, h.2 _ (endsValue_bracket rest)]
  by_cases hx : p x
  · simp only [hx, if_true, skipBlanks_cons (c := ']') rfl]
  · simp only [hx, if_false]

/-- All items are read, or none where one of them is refused. -/
theorem items_separated {x : Json} {xs : List Json} (h : ∀ y ∈ x :: xs, Reads read? text p f y)
    {steps : ℕ} (hsteps : xs.length < steps) (read : List Json) (rest : List Char) :
    items read? steps read (separated [','] ((x :: xs).map text) ++ ']' :: rest) =
      if ∀ y ∈ x :: xs, p y then some (read.reverse ++ (x :: xs).map f, rest) else none := by
  obtain ⟨steps, rfl⟩ := Nat.exists_eq_add_one_of_ne_zero (Nat.ne_zero_of_lt hsteps)
  rw [List.forall_mem_cons] at h
  induction xs generalizing x steps read with
  | nil =>
      rw [List.map_singleton, separated, items_bracket h.1]
      simp
  | cons y xs ih =>
      obtain ⟨steps, rfl⟩ := Nat.exists_eq_add_one_of_ne_zero
        (Nat.ne_zero_of_lt (Nat.lt_of_succ_lt_succ hsteps))
      rw [List.map_cons, List.map_cons, separated, List.append_assoc, List.append_assoc,
        List.singleton_append, items_comma h.1, ← List.map_cons,
        ih (List.forall_mem_cons.1 h.2) _ _ (Nat.lt_of_succ_lt_succ hsteps)]
      by_cases hx : p x
      · simp [hx]
      · simp [hx]

/-- The name of a member is read. -/
theorem members_quote (k : String) (steps : ℕ) (read : List (String × Json)) (cs : List Char) :
    members read? (steps + 1) read (quote k ++ ':' :: cs) =
      match read? (skipBlanks cs) with
      | none => none
      | some (item, rest) =>
        match skipBlanks rest with
        | ',' :: rest => members read? steps ((k, item) :: read) rest
        | '\x7d' :: rest => some (((k, item) :: read).reverse, rest)
        | _ => none := by
  have hname := stringBody_append k.toList [] (':' :: cs)
  rw [List.reverse_nil, List.nil_append, String.ofList_toList] at hname
  rw [quote, members, List.cons_append, skipBlanks_cons rfl, List.append_assoc,
    List.singleton_append]
  simp only [hname, skipBlanks_cons (c := ':') rfl]
  -- the match of the statement is that of the reader
  all_goals rfl

theorem members_comma {x : Json} (h : Reads read? text p f x) (k : String) (steps : ℕ)
    (read : List (String × Json)) (rest : List Char) :
    members read? (steps + 1) read (quote k ++ ':' :: (text x ++ ',' :: rest)) =
      if p x then members read? steps ((k, f x) :: read) rest else none := by
  rw [members_quote, h.1.skipBlanks, h.2 _ (endsValue_comma rest)]
  by_cases hx : p x
  · simp only [hx, if_true, skipBlanks_cons (c := ',') rfl]
  · simp only [hx, if_false]

theorem members_brace {x : Json} (h : Reads read? text p f x) (k : String) (steps : ℕ)
    (read : List (String × Json)) (rest : List Char) :
    members read? (steps + 1) read (quote k ++ ':' :: (text x ++ '\x7d' :: rest)) =
      if p x then some (((k, f x) :: read).reverse, rest) else none := by
  rw [members_quote, h.1.skipBlanks, h.2 _ (endsValue_brace rest)]
  by_cases hx : p x
  · simp only [hx, if_true, skipBlanks_cons (c := '\x7d') rfl]
  · simp only [hx, if_false]

/-- All members are read, or none where one of them is refused. -/
theorem members_separated {e : String × Json} {es : List (String × Json)}
    (h : ∀ d ∈ e :: es, Reads read? text p f d.2) {steps : ℕ} (hsteps : es.length < steps)
    (read : List (String × Json)) (rest : List Char) :
    members read? steps read
        (separated [','] ((e :: es).map fun d => quote d.1 ++ ':' :: text d.2) ++ '\x7d' :: rest) =
      if ∀ d ∈ e :: es, p d.2 then
        some (read.reverse ++ (e :: es).map fun d => (d.1, f d.2), rest)
      else none := by
  obtain ⟨steps, rfl⟩ := Nat.exists_eq_add_one_of_ne_zero (Nat.ne_zero_of_lt hsteps)
  rw [List.forall_mem_cons] at h
  induction es generalizing e steps read with
  | nil =>
      rw [List.map_singleton, separated, List.append_assoc, List.cons_append, members_brace h.1]
      simp
  | cons d es ih =>
      obtain ⟨steps, rfl⟩ := Nat.exists_eq_add_one_of_ne_zero
        (Nat.ne_zero_of_lt (Nat.lt_of_succ_lt_succ hsteps))
      rw [List.map_cons, List.map_cons, separated, List.append_assoc, List.append_assoc,
        List.append_assoc, List.singleton_append, List.cons_append, members_comma h.1,
        ← List.map_cons (f := fun d : String × Json => quote d.1 ++ ':' :: text d.2),
        ih (List.forall_mem_cons.1 h.2) _ _ (Nat.lt_of_succ_lt_succ hsteps)]
      have hall : (∀ c ∈ e :: d :: es, p c.2) ↔ p e.2 ∧ ∀ c ∈ d :: es, p c.2 :=
        List.forall_mem_cons
      by_cases hx : p e.2
      · simp only [hall, hx, true_and, if_true, List.map_cons, List.reverse_cons,
          List.append_assoc, List.singleton_append]
      · simp only [hall, hx, false_and, if_false]

end

/-! ### Values -/

theorem value_eq_scalar {c : Char} (ha : c ≠ '[') (ho : c ≠ '\x7b') (depth : ℕ) (cs : List Char) :
    value depth (c :: cs) = scalar (c :: cs) := by
  cases depth with
  | zero => rw [value]
  | succ depth =>
      unfold value
      split
      · next h => exact absurd (List.cons.inj h).1 ha
      · next h => exact absurd (List.cons.inj h).1 ho
      · rfl

theorem value_array {cs : List Char} (h : BeginsValue cs) (depth : ℕ) (rest : List Char) :
    value (depth + 1) ('[' :: (cs ++ rest)) =
      (items (value depth) (cs ++ rest).length [] (cs ++ rest)).map fun r => (.array r.1, r.2) := by
  obtain ⟨c, cs, rfl, hc, hclose, -⟩ := h
  rw [value, List.cons_append, skipBlanks_cons hc]
  split
  · next heq => exact absurd (List.cons.inj heq).1 hclose
  · rfl

theorem value_object {cs : List Char} (h : BeginsValue cs) (depth : ℕ) (rest : List Char) :
    value (depth + 1) ('\x7b' :: (cs ++ rest)) =
      (members (value depth) (cs ++ rest).length [] (cs ++ rest)).map fun r =>
        (.ofFields r.1, r.2) := by
  obtain ⟨c, cs, rfl, hc, -, hclose⟩ := h
  rw [value, List.cons_append, skipBlanks_cons hc]
  split
  · next heq => exact absurd (List.cons.inj heq).1 hclose
  · rfl

theorem BeginsValue.append {cs : List Char} (h : BeginsValue cs) (rest : List Char) :
    BeginsValue (cs ++ rest) := by
  obtain ⟨c, cs, rfl, hc⟩ := h
  exact ⟨c, cs ++ rest, rfl, hc⟩

theorem BeginsValue.separated {t : List Char} (h : BeginsValue t) (ts : List (List Char)) :
    BeginsValue (separated [','] (t :: ts)) := by
  cases ts with
  | nil => exact h
  | cons u ts =>
      rw [Json.separated, List.append_assoc]
      exact h.append _

theorem length_le_separated {ts : List (List Char)} (h : ∀ t ∈ ts, t ≠ []) :
    ts.length ≤ (separated [','] ts).length := by
  induction ts with
  | nil => exact Nat.zero_le _
  | cons t ts ih =>
      rw [List.forall_mem_cons] at h
      have hpos := List.length_pos_iff.2 h.1
      cases ts with
      | nil => exact hpos
      | cons u ts =>
          have := ih h.2
          simp only [Json.separated, List.length_append, List.length_cons, List.length_nil] at this ⊢
          omega

/-- An integer begins with a digit or a sign. -/
theorem exists_intChars (n : ℤ) :
    ∃ c cs, intChars n = c :: cs ∧ (c.isDigit = true ∨ c = '-') := by
  cases n with
  | ofNat n =>
      obtain ⟨d, ds, hds⟩ := List.exists_cons_of_ne_nil (Nat.toDigits_ne_nil (b := 10) (n := n))
      have hd : d ∈ Nat.toDigits 10 n := hds ▸ List.mem_cons_self
      exact ⟨d, ds, hds, .inl (Nat.isDigit_of_mem_toDigits (by decide) le_rfl hd)⟩
  | negSucc n => exact ⟨'-', _, rfl, .inr rfl⟩

theorem beginsValue_intChars (n : ℤ) : BeginsValue (intChars n) := by
  obtain ⟨c, cs, hcs, hc⟩ := exists_intChars n
  have hne : ∀ d : Char, d.isDigit = false → d ≠ '-' → c ≠ d := by
    rintro d hd hd' rfl
    exact hc.elim (by simp [hd]) hd'
  refine ⟨c, cs, hcs, ?_, hne ']' rfl (by decide), hne '\x7d' rfl (by decide)⟩
  simp [isBlank, hne ' ' rfl (by decide), hne '\n' rfl (by decide), hne '\t' rfl (by decide),
    hne '\r' rfl (by decide)]

/-- Integers are read at any depth. -/
theorem value_intChars {n : ℤ} (hn : Number.fits n = true) (depth : ℕ) {rest : List Char}
    (h : EndsValue rest) : value depth (intChars n ++ rest) = some (.int n, rest) := by
  have hread := scalar_intChars hn h
  obtain ⟨c, cs, hcs, hc⟩ := exists_intChars n
  rw [hcs, List.cons_append] at hread ⊢
  rw [value_eq_scalar _ _ depth, hread]
  all_goals
    rintro rfl
    exact hc.elim (by decide) (by decide)

theorem value_quote (s : String) (depth : ℕ) (rest : List Char) :
    value depth (quote s ++ rest) = some (.string s, rest) := by
  have hread := stringBody_append s.toList [] rest
  rw [List.reverse_nil, List.nil_append, String.ofList_toList] at hread
  rw [quote, List.cons_append, value_eq_scalar (by decide) (by decide), scalar, List.append_assoc,
    List.singleton_append, hread]
  rfl

theorem BeginsValue.ne_nil {cs : List Char} (h : BeginsValue cs) : cs ≠ [] := by
  obtain ⟨c, rest, rfl, -⟩ := h
  exact List.cons_ne_nil _ _

theorem beginsValue_quote (k : String) (rest : List Char) : BeginsValue (quote k ++ rest) :=
  ⟨'"', _, rfl, rfl, by decide, by decide⟩

/-- There are steps for each of the texts between separators. -/
theorem length_lt_separated {t : List Char} {ts : List (List Char)}
    (h : ∀ u ∈ t :: ts, BeginsValue u) (rest : List Char) (c : Char) :
    ts.length < (separated [','] (t :: ts) ++ c :: rest).length := by
  have hle := length_le_separated fun u hu => (h u hu).ne_nil
  simp only [List.length_append, List.length_cons] at hle ⊢
  omega

end Reader

end Json

end Crosswalk
