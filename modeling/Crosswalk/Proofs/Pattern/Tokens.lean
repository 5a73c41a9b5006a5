import Crosswalk.Proofs.Pattern.Classes

/-!
# The tokens of a written pattern

What the translation writes for an expression is read as the tokens that the syntax tree says
(`reads_expression`). A set of characters is one token. A quantifier takes a question mark or a plus
sign behind it for a part of itself, and so does an opening parenthesis; but no expression begins
with one of these (`IsBare`).
-/

namespace Crosswalk

namespace Pattern

open Regex

/-! ### Sets of characters -/

theorem token?_plain {c : Char} (h : c ∉ special) (hstart : c ≠ '^') (hstop : c ≠ '$')
    (rest : List Char) : token? (c :: rest) = some (.member (.single c), rest) := by
  unfold token?
  split <;> simp_all [special]

theorem token?_named {c : Char} {members : List ClassMember} (h : namedMembers? c = some members)
    (rest : List Char) : token? ('\\' :: c :: rest) = some (.member ⟨members, false⟩, rest) := by
  rw [token?, h]

theorem token?_escaped {c d : Char} (h : namedMembers? c = none) (hd : escaped? c = some d)
    (rest : List Char) : token? ('\\' :: c :: rest) = some (.member (.single d), rest) := by
  rw [token?, h, hd]
  rfl

theorem token?_refused {c : Char} (h : namedMembers? c = none) (hd : escaped? c = none)
    (rest : List Char) : token? ('\\' :: c :: rest) = none := by
  rw [token?, h, hd]
  rfl

theorem token?_group {g : CharGroup} {w : List Char} (h : g.written? = some w) (rest : List Char) :
    token? ('[' :: (w ++ ']' :: rest)) = g.class?.map fun kind => (.member kind, rest) := by
  rw [token?, charClass?_group h]
  cases g.class? <;> rfl

/-- The class that is written for a name escape. -/
def CharGroup.ofName (kind : EscapeKind) (negated : Bool) : CharGroup where
  negated := negated
  leading := false
  members := [.escape ⟨kind, false⟩]
  trailing := false
  nonempty := .inr (List.cons_ne_nil _ _)
  first _ _ := by simp [Member.text, Escape.text]

theorem token?_escape {e : Escape} {w : List Char} (h : e.written? false = some w)
    (rest : List Char) : token? (w ++ rest) = e.class?.map fun kind => (.member kind, rest) := by
  obtain ⟨kind, negated⟩ := e
  cases kind with
  | nameStart =>
      have hgroup : ∀ w, (CharGroup.ofName .nameStart negated).written? = some w →
          token? ('[' :: (w ++ ']' :: rest)) = _ := fun w h => token?_group h rest
      cases negated <;> cases h <;> exact hgroup _ rfl
  | name =>
      have hgroup : ∀ w, (CharGroup.ofName .name negated).written? = some w →
          token? ('[' :: (w ++ ']' :: rest)) = _ := fun w h => token?_group h rest
      cases negated <;> cases h <;> exact hgroup _ rfl
  | property name closed =>
      rw [Escape.eq_text_of_property false h]
      cases negated <;> exact token?_refused rfl rfl _
  | _ =>
      cases h
      cases negated <;> exact token?_named rfl rest

theorem token?_charSet {s : CharSet} {w : List Char} (h : s.written? = some w) (rest : List Char) :
    token? (w ++ rest) = s.class?.map fun kind => (.member kind, rest) := by
  cases s with
  | single c =>
      cases c with
      | escaped mark hmark =>
          cases h
          exact token?_escaped (named?_of_mem_marks hmark) (escaped?_of_mem_marks hmark) rest
      | plain c hc =>
          obtain rfl := Option.some.inj h
          split
          · next hanchor =>
              rcases hanchor with rfl | rfl <;> exact token?_escaped rfl rfl rest
          · next hanchor =>
              obtain ⟨hstart, hstop⟩ := not_or.1 hanchor
              exact token?_plain hc hstart hstop rest
  | any =>
      cases h
      rfl
  | escape e => exact token?_escape h rest
  | bracketed b =>
      cases b with
      | without g b => cases h
      | all g =>
          obtain ⟨v, hv, rfl⟩ := Option.map_eq_some_iff.1 h
          simpa [CharSet.class?, Bracketed.class?] using token?_group hv rest

/-! ### Rows of tokens -/

/-- The text is read as the tokens, if what comes behind it is of some kind. -/
def Reads (follows : List Char → Prop) (w : List Char) (ts : Option (List Token)) : Prop :=
  ∀ rest, follows rest → ∀ fuel, (w ++ rest).length ≤ fuel → ∃ left, rest.length ≤ left ∧
    tokens? fuel (w ++ rest) = joined? ts (tokens? left rest)

namespace Reads

variable {P Q : List Char → Prop} {w v : List Char} {ts us : Option (List Token)}

theorem nil : Reads P [] (some []) := fun rest _ fuel h => ⟨fuel, h, by simp⟩

theorem append (h : Reads P w ts) (h' : Reads Q v us) (hfollows : ∀ rest, Q rest → P (v ++ rest)) :
    Reads Q (w ++ v) (joined? ts us) := by
  intro rest hrest fuel hfuel
  rw [List.append_assoc] at hfuel ⊢
  obtain ⟨left, hleft, hw⟩ := h _ (hfollows rest hrest) fuel hfuel
  obtain ⟨last, hlast, hv⟩ := h' rest hrest left hleft
  exact ⟨last, hlast, by rw [hw, hv, joined?_assoc]⟩

theorem token {t : Option Token} (hw : w ≠ [])
    (h : ∀ rest, P rest → token? (w ++ rest) = t.map (·, rest)) :
    Reads P w (t.map fun t => [t]) := by
  intro rest hrest fuel hfuel
  obtain ⟨c, w, rfl⟩ := List.exists_cons_of_ne_nil hw
  obtain ⟨fuel, rfl⟩ : ∃ n, fuel = n + 1 := ⟨fuel - 1, by simp at hfuel; omega⟩
  refine ⟨fuel, by simp at hfuel; omega, ?_⟩
  have htoken := h rest hrest
  rw [List.cons_append] at htoken ⊢
  rw [tokens?, htoken]
  · cases t with
    | none => rfl
    | some t => cases htail : tokens? fuel rest <;> simp [htail]
  · simp

end Reads

/-! ### Quantifiers -/

/-- The text begins with nothing that belongs to a quantifier or parenthesis in front of it. -/
def IsBare (text : List Char) : Prop := text.head? ≠ some '?' ∧ text.head? ≠ some '+'

theorem IsBare.cons {c : Char} (hquestion : c ≠ '?') (hplus : c ≠ '+') (rest : List Char) :
    IsBare (c :: rest) := by
  simp [IsBare, hquestion, hplus]

theorem afterPreference_of_isBare {rest : List Char} (h : IsBare rest) :
    afterPreference rest = rest := by
  unfold afterPreference
  split <;> simp_all [IsBare]

theorem number?_count (n : Count) {c : Char} (hc : c.isDigit = false) (rest : List Char) :
    number? (n.digits ++ c :: rest) = some (n.value, c :: rest) := by
  have hread : (n.digits ++ c :: rest).takeWhile Char.isDigit = n.digits := by
    rw [List.takeWhile_append_of_pos n.isDigit, List.takeWhile_cons_of_neg (by simp [hc]),
      List.append_nil]
  have hne : n.digits.isEmpty = false := by simp [n.nonempty]
  simp [number?, hread, hne, Count.value]

/-- The token of a quantifier. -/
def Quantifier.tokens : Quantifier → List Token
  | once => []
  | q => [.repetition q.least q.most]

theorem repetition?_of_isBare (q : Quantifier) {rest : List Char} (h : IsBare rest) :
    repetition? q.least q.most rest = some (.repetition q.least q.most, rest) := by
  unfold repetition?
  rw [if_pos, afterPreference_of_isBare h]
  cases hmost : q.most with
  | none => rfl
  | some m => simpa using q.least_le_most hmost

theorem token?_bounds {cs left : List Char} {least : ℕ} {most : Option ℕ}
    (h : bounds? cs = some (least, most, left)) :
    token? ('\x7b' :: cs) = repetition? least most left := by
  rw [token?, h]

theorem bounds?_exactly (n : Count) (rest : List Char) :
    bounds? (n.digits ++ '\x7d' :: rest) = some (n.value, some n.value, rest) := by
  rw [bounds?, number?_count n (by decide)]
  rfl

theorem bounds?_atLeast (n : Count) (rest : List Char) :
    bounds? (n.digits ++ ',' :: '\x7d' :: rest) = some (n.value, none, rest) := by
  rw [bounds?, number?_count n (by decide)]
  rfl

theorem bounds?_between (n m : Count) (rest : List Char) :
    bounds? (n.digits ++ ',' :: (m.digits ++ '\x7d' :: rest)) =
      some (n.value, some m.value, rest) := by
  have hsecond := number?_count m (c := '\x7d') (by decide) rest
  have hbrace : ∀ left, m.digits ++ '\x7d' :: rest ≠ '\x7d' :: left := by
    intro left hleft
    obtain ⟨d, ds, hds⟩ := List.exists_cons_of_ne_nil m.nonempty
    have hdigit := m.isDigit d (by simp [hds])
    rw [hds] at hleft
    obtain ⟨rfl, -⟩ := List.cons.inj hleft
    exact absurd hdigit (by decide)
  rw [bounds?, number?_count n (by decide)]
  generalize m.digits ++ '\x7d' :: rest = cs at hsecond hbrace
  split <;> simp_all

theorem reads_quantifier (q : Quantifier) : Reads IsBare q.text (some q.tokens) := by
  have hreads : ∀ {w}, w ≠ [] → (∀ rest, token? (w ++ rest) = repetition? q.least q.most rest) →
      Reads IsBare w (some [.repetition q.least q.most]) := fun hw h =>
    Reads.token (t := some _) hw fun rest hrest => by
      rw [h, repetition?_of_isBare q hrest]
      rfl
  cases q with
  | once => exact Reads.nil
  | optional => exact hreads (by simp [Quantifier.text]) fun rest => rfl
  | any => exact hreads (by simp [Quantifier.text]) fun rest => rfl
  | positive => exact hreads (by simp [Quantifier.text]) fun rest => rfl
  | exactly n =>
      refine hreads (by simp [Quantifier.text]) fun rest => ?_
      simpa [Quantifier.text, Quantifier.least, Quantifier.most] using
        token?_bounds (bounds?_exactly n rest)
  | atLeast n =>
      refine hreads (by simp [Quantifier.text]) fun rest => ?_
      simpa [Quantifier.text, Quantifier.least, Quantifier.most] using
        token?_bounds (bounds?_atLeast n rest)
  | between n m ordered =>
      refine hreads (by simp [Quantifier.text]) fun rest => ?_
      simpa [Quantifier.text, Quantifier.least, Quantifier.most] using
        token?_bounds (bounds?_between n m rest)

/-! ### Expressions -/

mutual

/-- The tokens of an expression. -/
def Expression.tokens? : Expression → Option (List Token)
  | .single b => b.tokens?
  | .choice b e => joined? b.tokens? (e.tokens?.map (.bar :: ·))

def Branch.tokens? : Branch → Option (List Token)
  | .nil => some []
  | .cons a q rest => joined? a.tokens? (rest.tokens?.map (q.tokens ++ ·))

def Atom.tokens? : Atom → Option (List Token)
  | .chars s => s.class?.map fun kind => [.member kind]
  | .group e => e.tokens?.map fun ts => .opening :: (ts ++ [.closing])

end

theorem CharSet.head_of_written? {s : CharSet} {w : List Char} (h : s.written? = some w) :
    ∃ c rest, w = c :: rest ∧ c ≠ '?' ∧ c ≠ '+' := by
  have hhead : ∀ c ∈ ['\\', '[', '.'], ∀ rest, w = c :: rest →
      ∃ c rest, w = c :: rest ∧ c ≠ '?' ∧ c ≠ '+' := fun c hc rest hw =>
    ⟨c, rest, hw, by rintro rfl; simp at hc, by rintro rfl; simp at hc⟩
  cases s with
  | single c =>
      cases c with
      | escaped mark hmark => exact hhead '\\' (by decide) _ (Option.some.inj h).symm
      | plain c hc =>
          obtain rfl := Option.some.inj h
          split
          · exact ⟨_, _, rfl, by decide, by decide⟩
          · exact ⟨c, [], rfl, by rintro rfl; exact hc (by decide),
              by rintro rfl; exact hc (by decide)⟩
  | any => exact hhead '.' (by decide) _ (Option.some.inj h).symm
  | escape e =>
      obtain ⟨kind, negated⟩ := e
      cases kind with
      | nameStart => cases negated <;> exact hhead '[' (by decide) _ (Option.some.inj h).symm
      | name => cases negated <;> exact hhead '[' (by decide) _ (Option.some.inj h).symm
      | property name closed => exact hhead '\\' (by decide) _ (Escape.eq_text_of_property false h)
      | _ => exact hhead '\\' (by decide) _ (Option.some.inj h).symm
  | bracketed b =>
      cases b with
      | without g b => cases h
      | all g =>
          obtain ⟨v, -, rfl⟩ := Option.map_eq_some_iff.1 h
          exact hhead '[' (by decide) _ rfl

theorem Atom.head_of_written? {a : Atom} {w : List Char} (h : a.written? = some w) :
    ∃ c rest, w = c :: rest ∧ c ≠ '?' ∧ c ≠ '+' := by
  cases a with
  | chars s => exact CharSet.head_of_written? h
  | group e =>
      obtain ⟨v, -, rfl⟩ := Option.map_eq_some_iff.1 h
      exact ⟨'(', _, rfl, by decide, by decide⟩

theorem Branch.isBare_append {b : Branch} {w rest : List Char} (h : b.written? = some w)
    (hrest : IsBare rest) : IsBare (w ++ rest) := by
  cases b with
  | nil =>
      cases h
      exact hrest
  | cons a q more =>
      obtain ⟨u, v, hu, -, rfl⟩ := (joined?_eq_some_iff _ _ _).1 h
      obtain ⟨c, u, rfl, hquestion, hplus⟩ := Atom.head_of_written? hu
      exact IsBare.cons hquestion hplus _

theorem Expression.isBare_append {e : Expression} {w rest : List Char} (h : e.written? = some w)
    (hrest : IsBare rest) : IsBare (w ++ rest) := by
  cases e with
  | single b => exact Branch.isBare_append h hrest
  | choice b e =>
      obtain ⟨u, v, hu, hv, rfl⟩ := (joined?_eq_some_iff _ _ _).1 h
      obtain ⟨v, -, rfl⟩ := Option.map_eq_some_iff.1 hv
      rw [List.append_assoc]
      exact Branch.isBare_append hu (IsBare.cons (by decide) (by decide) _)

/-- The text is read as one token. -/
theorem reads_token {P : List Char → Prop} {c : Char} {t : Token}
    (h : ∀ rest, P rest → token? (c :: rest) = some (t, rest)) : Reads P [c] (some [t]) :=
  Reads.token (t := some t) (List.cons_ne_nil _ _) h

theorem reads_opening : Reads IsBare ['('] (some [.opening]) :=
  reads_token fun rest hrest => by
    rw [token?]
    · rintro more rfl
      exact hrest.1 rfl
    · rintro more rfl
      exact hrest.1 rfl

theorem reads_closing {P : List Char → Prop} : Reads P [')'] (some [.closing]) :=
  reads_token fun _ _ => rfl

theorem reads_bar {P : List Char → Prop} : Reads P ['|'] (some [.bar]) :=
  reads_token fun _ _ => rfl

mutual

theorem reads_expression : (e : Expression) → ∀ w, e.written? = some w →
    Reads IsBare w e.tokens?
  | .single b, w, h => reads_branch b w h
  | .choice b e, w, h => by
      obtain ⟨u, v, hu, hv, rfl⟩ := (joined?_eq_some_iff _ _ _).1 h
      obtain ⟨v, he, rfl⟩ := Option.map_eq_some_iff.1 hv
      have hbar := reads_bar.append (reads_expression e v he)
        fun _ h => e.isBare_append he h
      exact (reads_branch b u hu).append hbar fun _ _ => IsBare.cons (by decide) (by decide) _

theorem reads_branch : (b : Branch) → ∀ w, b.written? = some w → Reads IsBare w b.tokens?
  | .nil, w, h => by
      cases h
      exact Reads.nil
  | .cons a q rest, w, h => by
      obtain ⟨u, v, hu, hv, rfl⟩ := (joined?_eq_some_iff _ _ _).1 h
      obtain ⟨v, hrest, rfl⟩ := Option.map_eq_some_iff.1 hv
      have hquantifier := (reads_quantifier q).append (reads_branch rest v hrest)
        fun _ h => rest.isBare_append hrest h
      exact (reads_atom a u hu).append hquantifier fun _ _ => trivial

theorem reads_atom : (a : Atom) → ∀ w, a.written? = some w → Reads (fun _ => True) w a.tokens?
  | .chars s, w, h => by
      have hread := Reads.token (P := fun _ => True) (t := s.class?.map .member)
        (w := w) (by obtain ⟨c, rest, rfl, -⟩ := CharSet.head_of_written? h; simp)
        fun rest _ => by rw [token?_charSet h]; cases s.class? <;> rfl
      cases hclass : s.class? <;> simpa [Atom.tokens?, hclass] using hread
  | .group e, w, h => by
      obtain ⟨v, he, rfl⟩ := Option.map_eq_some_iff.1 h
      have hclosing := (reads_expression e v he).append (reads_closing (P := fun _ => True))
        fun _ _ => IsBare.cons (by decide) (by decide) _
      have hgroup := reads_opening.append hclosing fun rest _ => by
        rw [List.append_assoc]
        exact e.isBare_append he (IsBare.cons (by decide) (by decide) _)
      cases hts : e.tokens? <;> simpa [Atom.tokens?, hts] using hgroup

end

end Pattern

end Crosswalk
