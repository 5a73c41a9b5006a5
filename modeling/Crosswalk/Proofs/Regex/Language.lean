import Crosswalk.Regex
import Mathlib.Computability.Language

/-!
# What regular expressions match

`Regex.Matches r start stop cs` says that `r` matches a part `cs` of a text, which stands at the
beginning of the text if `start` says so, and at its end if `stop` does. What is left of an
expression behind a character matches what is left of the part (`Regex.matches_cons_iff`), and
searching finds a part that is matched if there is one (`Regex.found_iff`). Both ask that the bounds
of repetitions are in order: a repetition whose body matches the empty text counts it as often as it
has to.

An expression without anchors matches the texts of a language wherever they stand
(`Regex.Denotes`).
-/

namespace Crosswalk

namespace Regex

/-- A part of a text falls into so many pieces, each of which satisfies `P` where it stands. -/
def Pieces (P : Bool → Bool → List Char → Prop) : ℕ → Bool → Bool → List Char → Prop
  | 0, _, _, cs => cs = []
  | n + 1, start, stop, cs => ∃ u v, cs = u ++ v ∧ P start (stop && v.isEmpty) u ∧
      Pieces P n (start && u.isEmpty) stop v

namespace Pieces

variable {P : Bool → Bool → List Char → Prop}

theorem nil_iff {n : ℕ} {start stop : Bool} :
    Pieces P n start stop [] ↔ n = 0 ∨ P start stop [] := by
  induction n with
  | zero => simp [Pieces]
  | succ n ih =>
      constructor
      · rintro ⟨u, v, h, hu, -⟩
        obtain ⟨rfl, rfl⟩ := List.append_eq_nil_iff.1 h.symm
        exact .inr (by simpa using hu)
      · intro h
        have hP := h.resolve_left n.succ_ne_zero
        exact ⟨[], [], rfl, by simpa using hP, by simpa using ih.2 (.inr hP)⟩

/-- Pieces before the first character are empty, and one round has it. -/
theorem cons_iff {n : ℕ} {start stop : Bool} {c : Char} {w : List Char} :
    Pieces P n start stop (c :: w) ↔ ∃ k m u v, n = k + 1 + m ∧ w = u ++ v ∧
      (k ≠ 0 → P start false []) ∧ P start (stop && v.isEmpty) (c :: u) ∧
      Pieces P m false stop v := by
  induction n with
  | zero =>
      simp only [Pieces, List.cons_ne_nil, false_iff]
      rintro ⟨k, m, u, v, h, -⟩
      omega
  | succ n ih =>
      constructor
      · rintro ⟨u, v, h, hu, hv⟩
        cases u with
        | nil =>
            obtain rfl : c :: w = v := by simpa using h
            obtain ⟨k, m, u, v, rfl, rfl, -, hu', hv'⟩ := ih.1 (by simpa using hv)
            exact ⟨k + 1, m, u, v, by omega, rfl, fun _ => by simpa using hu, hu', hv'⟩
        | cons d u =>
            obtain ⟨rfl, rfl⟩ := List.cons.inj h
            exact ⟨0, n, u, v, by omega, rfl, fun h => absurd rfl h, hu, by simpa using hv⟩
      · rintro ⟨k, m, u, v, hn, rfl, hempty, hu, hv⟩
        cases k with
        | zero =>
            obtain rfl : n = m := by omega
            exact ⟨c :: u, v, rfl, hu, by simpa using hv⟩
        | succ k =>
            have hP := hempty k.succ_ne_zero
            refine ⟨[], c :: (u ++ v), rfl, by simpa using hP, ?_⟩
            simpa using ih.2 ⟨k, m, u, v, by omega, rfl, fun _ => hP, hu, hv⟩

end Pieces

/-- The expression matches a part of a text that stands at its beginning if `start` says so, and at
its end if `stop` does. -/
def Matches : Regex → Bool → Bool → List Char → Prop
  | .empty, _, _, cs => cs = []
  | .one kind, _, _, cs => ∃ c, cs = [c] ∧ kind.has c = true
  | .atStart, start, _, cs => cs = [] ∧ start = true
  | .atEnd, _, stop, cs => cs = [] ∧ stop = true
  | .cat a b, start, stop, cs => ∃ u v, cs = u ++ v ∧ Matches a start (stop && v.isEmpty) u ∧
      Matches b (start && u.isEmpty) stop v
  | .alt a b, start, stop, cs => Matches a start stop cs ∨ Matches b start stop cs
  | .repeated a least most, start, stop, cs => ∃ n, least ≤ n ∧ (∀ m, most = some m → n ≤ m) ∧
      Pieces (Matches a) n start stop cs

/-- The bounds of all repetitions are in order. -/
def IsOrdered : Regex → Prop
  | .cat a b => a.IsOrdered ∧ b.IsOrdered
  | .alt a b => a.IsOrdered ∧ b.IsOrdered
  | .repeated a least most => a.IsOrdered ∧ ∀ m, most = some m → least ≤ m
  | _ => True

theorem matches_cat_empty_left {b : Regex} {start stop : Bool} {cs : List Char} :
    (cat empty b).Matches start stop cs ↔ b.Matches start stop cs := by
  constructor
  · rintro ⟨u, v, rfl, rfl, h⟩
    simpa using h
  · exact fun h => ⟨[], cs, rfl, rfl, by simpa using h⟩

theorem matches_cat_empty_right {a : Regex} {start stop : Bool} {cs : List Char} :
    (cat a empty).Matches start stop cs ↔ a.Matches start stop cs := by
  constructor
  · rintro ⟨u, v, rfl, h, rfl⟩
    simpa using h
  · exact fun h => ⟨cs, [], by simp, by simpa using h, rfl⟩

theorem matches_andThen {a b : Regex} {start stop : Bool} {cs : List Char} :
    (a.andThen b).Matches start stop cs ↔ (cat a b).Matches start stop cs := by
  unfold andThen
  split
  · exact matches_cat_empty_left.symm
  · exact matches_cat_empty_right.symm
  · exact Iff.rfl

@[simp] theorem andThen_empty (a : Regex) : a.andThen empty = a := by
  cases a <;> rfl

theorem IsOrdered.andThen {a b : Regex} (ha : a.IsOrdered) (hb : b.IsOrdered) :
    (a.andThen b).IsOrdered := by
  unfold Regex.andThen
  split
  · exact hb
  · exact ha
  · exact ⟨ha, hb⟩

theorem nullable_iff {r : Regex} (h : r.IsOrdered) (start stop : Bool) :
    nullable start stop r = true ↔ r.Matches start stop [] := by
  induction r generalizing start stop with
  | empty => simp [nullable, Matches]
  | one kind => simp [nullable, Matches]
  | atStart => simp [nullable, Matches]
  | atEnd => simp [nullable, Matches]
  | cat a b iha ihb =>
      rw [nullable, Bool.and_eq_true, iha h.1, ihb h.2]
      constructor
      · exact fun ⟨ha, hb⟩ => ⟨[], [], rfl, by simpa using ha, by simpa using hb⟩
      · rintro ⟨u, v, huv, ha, hb⟩
        obtain ⟨rfl, rfl⟩ := List.append_eq_nil_iff.1 huv.symm
        exact ⟨by simpa using ha, by simpa using hb⟩
  | alt a b iha ihb => rw [nullable, Bool.or_eq_true, iha h.1, ihb h.2]; exact Iff.rfl
  | repeated a least most ih =>
      rw [nullable, Bool.or_eq_true, ih h.1, beq_iff_eq]
      simp only [Matches, Pieces.nil_iff]
      constructor
      · rintro (rfl | ha)
        · exact ⟨0, Nat.le_refl 0, fun _ _ => Nat.zero_le _, .inl rfl⟩
        · exact ⟨least, Nat.le_refl least, h.2, .inr ha⟩
      · rintro ⟨n, hleast, -, rfl | ha⟩
        · exact .inl (Nat.le_zero.1 hleast)
        · exact .inr ha

theorem isOrdered_of_mem_partials {r q : Regex} (h : r.IsOrdered) {start : Bool} {c : Char}
    (hq : q ∈ partials start c r) : q.IsOrdered := by
  induction r generalizing q with
  | empty => cases hq
  | atStart => cases hq
  | atEnd => cases hq
  | one kind =>
      unfold partials at hq
      split at hq
      · exact List.mem_singleton.1 hq ▸ trivial
      · cases hq
  | cat a b iha ihb =>
      rcases List.mem_append.1 hq with hq | hq
      · obtain ⟨p, hp, rfl⟩ := List.mem_map.1 hq
        exact (iha h.1 hp).andThen h.2
      · split at hq
        · exact ihb h.2 hq
        · cases hq
  | alt a b iha ihb =>
      rcases List.mem_append.1 hq with hq | hq
      · exact iha h.1 hq
      · exact ihb h.2 hq
  | repeated a least most ih =>
      unfold partials at hq
      split at hq
      · cases hq
      · obtain ⟨p, hp, rfl⟩ := List.mem_map.1 hq
        refine (ih h.1 hp).andThen ⟨h.1, fun m hm => ?_⟩
        obtain ⟨m, rfl, rfl⟩ := Option.map_eq_some_iff.1 hm
        have := h.2 m rfl
        split <;> omega

/-- The first character of a part that two expressions match belongs to the first, unless that
matches the empty text in front of it. -/
theorem matches_cat_cons {a b : Regex} {start stop : Bool} {c : Char} {w : List Char} :
    (cat a b).Matches start stop (c :: w) ↔
      (∃ u v, w = u ++ v ∧ a.Matches start (stop && v.isEmpty) (c :: u) ∧
        b.Matches false stop v) ∨
      (a.Matches start false [] ∧ b.Matches start stop (c :: w)) := by
  constructor
  · rintro ⟨u, v, h, ha, hb⟩
    cases u with
    | nil =>
        obtain rfl : c :: w = v := h
        exact .inr ⟨by simpa using ha, by simpa using hb⟩
    | cons d u =>
        obtain ⟨rfl, rfl⟩ := List.cons.inj h
        exact .inl ⟨u, v, rfl, ha, by simpa using hb⟩
  · rintro (⟨u, v, rfl, ha, hb⟩ | ⟨ha, hb⟩)
    · exact ⟨c :: u, v, rfl, ha, by simpa using hb⟩
    · exact ⟨[], c :: w, rfl, by simpa using ha, by simpa using hb⟩

/-- Where the body matches the empty text, the rounds before the one with the first character are
as many as are missing. -/
theorem matches_repeated_cons {a : Regex} {least : ℕ} {most : Option ℕ}
    (h : (repeated a least most).IsOrdered) {start stop : Bool} {c : Char} {w : List Char} :
    (repeated a least most).Matches start stop (c :: w) ↔
      most ≠ some 0 ∧ ∃ u v, w = u ++ v ∧ a.Matches start (stop && v.isEmpty) (c :: u) ∧
        (repeated a (if nullable start false a then 0 else least - 1) (most.map (· - 1))).Matches
          false stop v := by
  have hnull := nullable_iff h.1 start false
  constructor
  · rintro ⟨n, hleast, hmost, hn⟩
    obtain ⟨k, m, u, v, rfl, rfl, hempty, hu, hv⟩ := Pieces.cons_iff.1 hn
    refine ⟨fun h0 => absurd (hmost 0 h0) (by omega), u, v, rfl, hu, m, ?_, fun b hb => ?_, hv⟩
    · split
      · exact Nat.zero_le m
      · next hno =>
          have hk : k = 0 := by
            by_contra hk
            exact hno (hnull.2 (hempty hk))
          omega
    · obtain ⟨b, rfl, rfl⟩ := Option.map_eq_some_iff.1 hb
      have := hmost b rfl
      omega
  · rintro ⟨hmost, u, v, rfl, hu, m, hleast, hbound, hv⟩
    -- rounds that match the empty text make up for the missing ones
    refine ⟨least - (m + 1) + 1 + m, by omega, fun b hb => ?_,
      Pieces.cons_iff.2 ⟨_, m, u, v, rfl, rfl, fun hk => hnull.1 ?_, hu, hv⟩⟩
    · have hb0 : b ≠ 0 := fun h0 => hmost (h0 ▸ hb)
      have := hbound (b - 1) (by simp [hb])
      have := h.2 b hb
      omega
    · by_contra hno
      rw [if_neg hno] at hleast
      omega

/-- What is left of an expression behind a character matches what is left of the part. -/
theorem matches_cons_iff {r : Regex} (h : r.IsOrdered) (start stop : Bool) (c : Char)
    (w : List Char) : r.Matches start stop (c :: w) ↔
      ∃ q ∈ partials start c r, q.Matches false stop w := by
  induction r generalizing stop w with
  | empty => simp [Matches, partials]
  | atStart => simp [Matches, partials]
  | atEnd => simp [Matches, partials]
  | one kind =>
      unfold partials
      split
      · next hc => simp [Matches, hc]
      · next hc => simp [Matches, hc]
  | cat a b iha ihb =>
      rw [matches_cat_cons, ← nullable_iff h.1 start false, ihb h.2]
      simp only [partials, List.mem_append, List.mem_map, or_and_right, exists_or]
      refine or_congr ?_ ?_
      · simp only [iha h.1]
        constructor
        · rintro ⟨u, v, rfl, ⟨q, hq, hu⟩, hv⟩
          exact ⟨_, ⟨q, hq, rfl⟩, matches_andThen.2 ⟨u, v, rfl, hu, by simpa using hv⟩⟩
        · rintro ⟨-, ⟨q, hq, rfl⟩, hw⟩
          obtain ⟨u, v, rfl, hu, hv⟩ := matches_andThen.1 hw
          exact ⟨u, v, rfl, ⟨q, hq, hu⟩, by simpa using hv⟩
      · split
        · next hnull => simp [hnull]
        · next hnull => simp [hnull]
  | alt a b iha ihb =>
      simp only [Matches, iha h.1, ihb h.2, partials, List.mem_append, or_and_right, exists_or]
  | repeated a least most ih =>
      rw [matches_repeated_cons h]
      by_cases hmost : most = some 0
      · simp [partials, hmost]
      · simp only [partials, if_neg hmost, ih h.1, List.mem_map]
        constructor
        · rintro ⟨-, u, v, rfl, ⟨q, hq, hu⟩, hv⟩
          exact ⟨_, ⟨q, hq, rfl⟩, matches_andThen.2 ⟨u, v, rfl, hu, by simpa using hv⟩⟩
        · rintro ⟨-, ⟨q, hq, rfl⟩, hw⟩
          obtain ⟨u, v, rfl, hu, hv⟩ := matches_andThen.1 hw
          exact ⟨hmost, u, v, rfl, ⟨q, hq, hu⟩, by simpa using hv⟩

/-! ### Searching -/

/-- A search goes on with the states, or begins the expression at a later place. -/
theorem foundFrom_iff {r : Regex} (h : r.IsOrdered) {states : List Regex}
    (hstates : ∀ q ∈ states, q.IsOrdered) {start : Bool} {cs : List Char} :
    foundFrom r states start cs = true ↔
      (∃ q ∈ states, ∃ mid post, cs = mid ++ post ∧ q.Matches start post.isEmpty mid) ∨
      ∃ pre mid post, pre ≠ [] ∧ cs = pre ++ mid ++ post ∧ r.Matches false post.isEmpty mid := by
  induction cs generalizing states start with
  | nil =>
      simp only [foundFrom, List.any_eq_true]
      constructor
      · rintro ⟨q, hq, hnull⟩
        exact .inl ⟨q, hq, [], [], rfl, (nullable_iff (hstates q hq) _ _).1 hnull⟩
      · rintro (⟨q, hq, mid, post, hcs, hm⟩ | ⟨pre, mid, post, hpre, hcs, -⟩)
        · obtain ⟨rfl, rfl⟩ := List.append_eq_nil_iff.1 hcs.symm
          exact ⟨q, hq, (nullable_iff (hstates q hq) _ _).2 hm⟩
        · exact absurd (List.append_eq_nil_iff.1 (List.append_eq_nil_iff.1 hcs.symm).1).1 hpre
  | cons c rest ih =>
      have hnext : ∀ q ∈ (r :: states.flatMap (partials start c)).eraseDups, q.IsOrdered := by
        intro q hq
        rcases List.mem_cons.1 (List.mem_eraseDups.1 hq) with rfl | hq
        · exact h
        · obtain ⟨p, hp, hq⟩ := List.mem_flatMap.1 hq
          exact isOrdered_of_mem_partials (hstates p hp) hq
      rw [foundFrom, Bool.or_eq_true, List.any_eq_true, ih hnext]
      simp only [List.mem_eraseDups, List.mem_cons, List.mem_flatMap]
      constructor
      · rintro (⟨q, hq, hnull⟩ | ⟨q, rfl | ⟨p, hp, hq⟩, mid, post, rfl, hm⟩ |
          ⟨pre, mid, post, -, rfl, hm⟩)
        · exact .inl ⟨q, hq, [], c :: rest, rfl, (nullable_iff (hstates q hq) _ _).1 hnull⟩
        · exact .inr ⟨[c], mid, post, by simp, rfl, hm⟩
        · exact .inl ⟨p, hp, c :: mid, post, rfl,
            (matches_cons_iff (hstates p hp) _ _ _ _).2 ⟨q, hq, hm⟩⟩
        · exact .inr ⟨c :: pre, mid, post, by simp, rfl, hm⟩
      · rintro (⟨q, hq, mid, post, hcs, hm⟩ | ⟨pre, mid, post, hpre, hcs, hm⟩)
        · cases mid with
          | nil =>
              obtain rfl : c :: rest = post := hcs
              exact .inl ⟨q, hq, (nullable_iff (hstates q hq) _ _).2 hm⟩
          | cons d mid =>
              obtain ⟨rfl, rfl⟩ := List.cons.inj hcs
              obtain ⟨p, hp, hm⟩ := (matches_cons_iff (hstates q hq) _ _ _ _).1 hm
              exact .inr (.inl ⟨p, .inr ⟨q, hq, hp⟩, mid, post, rfl, hm⟩)
        · obtain ⟨d, pre, rfl⟩ := List.exists_cons_of_ne_nil hpre
          obtain ⟨rfl, rfl⟩ := List.cons.inj hcs
          cases pre with
          | nil => exact .inr (.inl ⟨r, .inl rfl, mid, post, rfl, hm⟩)
          | cons e pre => exact .inr (.inr ⟨e :: pre, mid, post, by simp, rfl, hm⟩)

/-- Searching finds a part that matches if there is one. -/
theorem found_iff {r : Regex} (h : r.IsOrdered) {text : String} :
    r.found text = true ↔ ∃ pre mid post, text.toList = pre ++ mid ++ post ∧
      r.Matches pre.isEmpty post.isEmpty mid := by
  rw [found, foundFrom_iff h (by simpa using h)]
  constructor
  · rintro (⟨q, hq, mid, post, hcs, hm⟩ | ⟨pre, mid, post, hpre, hcs, hm⟩)
    · obtain rfl := List.mem_singleton.1 hq
      exact ⟨[], mid, post, hcs, hm⟩
    · obtain ⟨d, pre, rfl⟩ := List.exists_cons_of_ne_nil hpre
      exact ⟨d :: pre, mid, post, hcs, hm⟩
  · rintro ⟨pre, mid, post, hcs, hm⟩
    cases pre with
    | nil => exact .inl ⟨r, by simp, mid, post, hcs, hm⟩
    | cons d pre => exact .inr ⟨d :: pre, mid, post, by simp, hcs, hm⟩

/-! ### Expressions without anchors -/

/-- The expression matches the texts of a language wherever they stand, and its bounds are in
order. -/
structure Denotes (r : Regex) (l : Language Char) : Prop where
  isOrdered : r.IsOrdered
  matches_iff : ∀ start stop cs, r.Matches start stop cs ↔ cs ∈ l

namespace Denotes

variable {a b : Regex} {l m : Language Char}

theorem empty : Regex.empty.Denotes 1 := ⟨trivial, fun _ _ _ => Iff.rfl⟩

theorem one (kind : CharClass) :
    (Regex.one kind).Denotes {cs | ∃ c, cs = [c] ∧ kind.has c = true} :=
  ⟨trivial, fun _ _ _ => Iff.rfl⟩

theorem andThen (ha : a.Denotes l) (hb : b.Denotes m) : (a.andThen b).Denotes (l * m) where
  isOrdered := ha.isOrdered.andThen hb.isOrdered
  matches_iff start stop cs := by
    rw [matches_andThen, Language.mem_mul]
    simp only [Matches, ha.matches_iff, hb.matches_iff]
    constructor
    · rintro ⟨u, v, rfl, hu, hv⟩
      exact ⟨u, hu, v, hv, rfl⟩
    · rintro ⟨u, hu, v, hv, rfl⟩
      exact ⟨u, v, rfl, hu, hv⟩

theorem alt (ha : a.Denotes l) (hb : b.Denotes m) : (Regex.alt a b).Denotes (l + m) where
  isOrdered := ⟨ha.isOrdered, hb.isOrdered⟩
  matches_iff start stop cs := by
    rw [Language.mem_add, ← ha.matches_iff start stop, ← hb.matches_iff start stop]
    exact Iff.rfl

theorem pieces_iff (h : a.Denotes l) (n : ℕ) (start stop : Bool) (cs : List Char) :
    Pieces a.Matches n start stop cs ↔ cs ∈ l ^ n := by
  induction n generalizing start stop cs with
  | zero => exact Iff.rfl
  | succ n ih =>
      rw [pow_succ', Language.mem_mul]
      simp only [Pieces, h.matches_iff, ih]
      constructor
      · rintro ⟨u, v, rfl, hu, hv⟩
        exact ⟨u, hu, v, hv, rfl⟩
      · rintro ⟨u, hu, v, hv, rfl⟩
        exact ⟨u, v, rfl, hu, hv⟩

theorem repeated (h : a.Denotes l) {least : ℕ} {most : Option ℕ}
    (hordered : ∀ m, most = some m → least ≤ m) : (Regex.repeated a least most).Denotes
      {cs | ∃ n, least ≤ n ∧ (∀ m, most = some m → n ≤ m) ∧ cs ∈ l ^ n} where
  isOrdered := ⟨h.isOrdered, hordered⟩
  matches_iff start stop cs :=
    exists_congr fun n => and_congr_right' (and_congr_right' (h.pieces_iff n start stop cs))

/-- Between the anchors, it is the whole text that has to match. -/
theorem found_between (h : a.Denotes l) (text : String) :
    ((atStart.andThen a).andThen atEnd).found text = true ↔ text.toList ∈ l := by
  have hordered : ((atStart.andThen a).andThen atEnd).IsOrdered :=
    IsOrdered.andThen (IsOrdered.andThen trivial h.isOrdered) trivial
  rw [found_iff hordered]
  simp only [matches_andThen, Matches, h.matches_iff]
  constructor
  · rintro ⟨pre, mid, post, htext, u, v, rfl, ⟨s, w, rfl, ⟨rfl, hpre⟩, hw⟩, rfl, hpost⟩
    obtain rfl := List.isEmpty_iff.1 hpre
    obtain rfl := List.isEmpty_iff.1 hpost
    rw [htext]
    simpa using hw
  · intro htext
    exact ⟨[], text.toList, [], (List.append_nil _).symm, text.toList, [],
      (List.append_nil _).symm, ⟨[], text.toList, rfl, ⟨rfl, rfl⟩, htext⟩, rfl, rfl⟩

end Denotes

end Regex

end Crosswalk
