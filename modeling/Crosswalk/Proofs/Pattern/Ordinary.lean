import Crosswalk.Proofs.Pattern.Coverage
import Crosswalk.Proofs.Pattern.Search

/-!
# Patterns that are translated exactly

Some sets of characters are the same in a pattern and in its translation: single characters, escaped
or not, and classes of these from which none is taken away. An expression over such sets is always
translated, its translation can always be read, and what the anchored alternatives find are the
texts that one of the expressions matches as a whole (`isFoundIn_anchored_iff`). The set of all
characters is not among them, since it has the carriage return only in the translation.
-/

namespace Crosswalk

/-- The expression can be read, and some part of the text matches it. -/
def Regex.IsFoundIn (pattern text : String) : Prop :=
  ∃ r, Regex.ofText? pattern = some r ∧ r.found text = true

namespace Pattern

/-! ### Sets of characters -/

namespace CharSet

/-- A single character, or a class that is listed. -/
def IsOrdinary (s : CharSet) : Prop := s.IsPlain ∧ s ≠ any

theorem isRead_iff_of_isOrdinary (u : Alphabet) {s : CharSet} (h : s.IsOrdinary) (c : Char) :
    s.IsRead c ↔ s.has u c := isRead_iff u h.1 h.2 c

/-- There is a text for the set. -/
theorem exists_written? {s : CharSet} (h : s.IsPlain) : ∃ w, s.written? = some w := by
  have hrow : ∀ ms : List Member, (∀ m ∈ ms, m.IsPlain) →
      ∃ w, CharGroup.row? Member.written? ms = some w := by
    intro ms
    induction ms with
    | nil => exact fun _ => ⟨[], rfl⟩
    | cons m rest ih =>
        intro hms
        obtain ⟨hm, hrest⟩ := List.forall_mem_cons.1 hms
        obtain ⟨w, hw⟩ := ih hrest
        cases m with
        | escape e => exact hm.elim
        | single c => exact ⟨_, by rw [CharGroup.row?, hw]; rfl⟩
        | range first last ordered => exact ⟨_, by rw [CharGroup.row?, hw]; rfl⟩
  cases s with
  | single c => cases c <;> exact ⟨_, rfl⟩
  | any => exact ⟨_, rfl⟩
  | escape e => exact h.elim
  | bracketed b =>
      cases b with
      | without g b => exact h.elim
      | all g =>
          obtain ⟨w, hw⟩ := hrow g.members h
          exact ⟨_, by rw [written?, Bracketed.written?, CharGroup.written?, hw]; rfl⟩

/-- There is a class for the set. -/
theorem exists_class? (u : Alphabet) {s : CharSet} (h : s.IsPlain) : ∃ k, s.class? = some k := by
  cases s with
  | single c => exact ⟨_, rfl⟩
  | any => exact ⟨_, rfl⟩
  | escape e => exact h.elim
  | bracketed b =>
      cases b with
      | without g b => exact h.elim
      | all g =>
          obtain ⟨k, hk, -⟩ := CharGroup.class?_has_iff u h
          exact ⟨k, hk⟩

end CharSet

/-! ### Expressions -/

/-- All sets of characters in the expression are ordinary. -/
def Expression.IsOrdinary (x : Expression) : Prop := ∀ s ∈ x.charSets, s.IsOrdinary

theorem exists_joined? {α : Type} {a b : Option (List α)} (ha : ∃ u, a = some u)
    (hb : ∃ v, b = some v) (f : List α → List α) : ∃ w, joined? a (b.map f) = some w := by
  obtain ⟨u, rfl⟩ := ha
  obtain ⟨v, rfl⟩ := hb
  exact ⟨_, rfl⟩

mutual

/-- There is a text for an expression if there is one for each of its sets. -/
theorem Expression.exists_written? : (x : Expression) →
    (∀ s ∈ x.charSets, ∃ w, s.written? = some w) → ∃ w, x.written? = some w
  | .single b, h => b.exists_written? h
  | .choice b x, h =>
      exists_joined? (b.exists_written? fun s hs => h s (List.mem_append_left _ hs))
        (x.exists_written? fun s hs => h s (List.mem_append_right _ hs)) _

theorem Branch.exists_written? : (b : Branch) →
    (∀ s ∈ b.charSets, ∃ w, s.written? = some w) → ∃ w, b.written? = some w
  | .nil, _ => ⟨[], rfl⟩
  | .cons a _ b, h =>
      exists_joined? (a.exists_written? fun s hs => h s (List.mem_append_left _ hs))
        (b.exists_written? fun s hs => h s (List.mem_append_right _ hs)) _

theorem Atom.exists_written? : (a : Atom) →
    (∀ s ∈ a.charSets, ∃ w, s.written? = some w) → ∃ w, a.written? = some w
  | .chars s, h => h s (List.mem_singleton_self s)
  | .group x, h => by
      obtain ⟨w, hw⟩ := x.exists_written? h
      exact ⟨_, by rw [Atom.written?, hw]; rfl⟩

end

mutual

/-- There are tokens for an expression if there is a class for each of its sets. -/
theorem Expression.exists_tokens? : (x : Expression) →
    (∀ s ∈ x.charSets, ∃ k, s.class? = some k) → ∃ ts, x.tokens? = some ts
  | .single b, h => b.exists_tokens? h
  | .choice b x, h =>
      exists_joined? (b.exists_tokens? fun s hs => h s (List.mem_append_left _ hs))
        (x.exists_tokens? fun s hs => h s (List.mem_append_right _ hs)) _

theorem Branch.exists_tokens? : (b : Branch) →
    (∀ s ∈ b.charSets, ∃ k, s.class? = some k) → ∃ ts, b.tokens? = some ts
  | .nil, _ => ⟨[], rfl⟩
  | .cons a _ b, h =>
      exists_joined? (a.exists_tokens? fun s hs => h s (List.mem_append_left _ hs))
        (b.exists_tokens? fun s hs => h s (List.mem_append_right _ hs)) _

theorem Atom.exists_tokens? : (a : Atom) →
    (∀ s ∈ a.charSets, ∃ k, s.class? = some k) → ∃ ts, a.tokens? = some ts
  | .chars s, h => by
      obtain ⟨k, hk⟩ := h s (List.mem_singleton_self s)
      exact ⟨_, by rw [Atom.tokens?, hk]; rfl⟩
  | .group x, h => by
      obtain ⟨ts, hts⟩ := x.exists_tokens? h
      exact ⟨_, by rw [Atom.tokens?, hts]; rfl⟩

end

namespace Expression

variable {x : Expression}

/-- A pattern of ordinary sets is translated. -/
theorem exists_translate (h : x.IsOrdinary) {pattern : String} (htext : pattern.toList = x.text) :
    ∃ p, translate pattern = .ok p := by
  obtain ⟨w, hw⟩ := x.exists_written? fun s hs => s.exists_written? (h s hs).1
  have htranslated := translate_toOption x htext
  rw [hw] at htranslated
  cases hp : translate pattern with
  | ok p => exact ⟨p, rfl⟩
  | error e => simp [hp, Except.toOption] at htranslated

/-- Reading ordinary sets as they are written does not change the language. -/
theorem mem_language_isRead_iff (u : Alphabet) (h : x.IsOrdinary) (cs : List Char) :
    cs ∈ x.language CharSet.IsRead ↔ cs ∈ x.language (CharSet.has u) :=
  ⟨x.mem_language_of_forall cs fun s hs c _ hc => (s.isRead_iff_of_isOrdinary u (h s hs) c).1 hc,
    x.mem_language_of_forall cs fun s hs c _ hc => (s.isRead_iff_of_isOrdinary u (h s hs) c).2 hc⟩

end Expression

/-! ### Alternatives -/

/-- The anchored expression of alternatives can be read, if there is a class for each set in
them. -/
theorem exists_ofText?_anchored {texts : List String} {expressions : List Expression}
    (h : AreWritten texts expressions) (hne : texts ≠ [])
    (hclass : ∀ x ∈ expressions, ∀ s ∈ x.charSets, ∃ k, s.class? = some k) :
    ∃ r, Regex.ofText? (anchored texts) = some r := by
  obtain ⟨x, hx, -, hsets⟩ := exists_joined h hne
  obtain ⟨ts, hts⟩ := x.exists_tokens? fun s hs => by
    obtain ⟨y, hy, hs⟩ := hsets s hs
    exact hclass y hy s hs
  obtain ⟨f, hread, -⟩ := ofTokens?_expression x ts hts [Regex.Frame.pushFixed {} .atStart] {} 0
    [.closing, .stop] .fresh
  rw [ofText?_anchored hx, hts]
  exact ⟨_, hread.trans rfl⟩

/-- The anchored expression of ordinary alternatives is found in the texts that one of them matches
as a whole. -/
theorem isFoundIn_anchored_iff (u : Alphabet) {texts : List String} {expressions : List Expression}
    (h : AreWritten texts expressions) (hne : texts ≠ [])
    (hordinary : ∀ x ∈ expressions, x.IsOrdinary) (text : String) :
    Regex.IsFoundIn (anchored texts) text ↔
      ∃ x ∈ expressions, text.toList ∈ x.language (CharSet.has u) := by
  obtain ⟨r, hr⟩ := exists_ofText?_anchored h hne fun x hx s hs =>
    s.exists_class? u (hordinary x hx s hs).1
  have hfound : Regex.IsFoundIn (anchored texts) text ↔ r.found text = true := by
    simp [Regex.IsFoundIn, hr]
  rw [hfound, found_anchored h hne hr]
  refine exists_congr fun x => and_congr_right fun hx => ?_
  exact x.mem_language_isRead_iff u (hordinary x hx) text.toList

end Pattern

end Crosswalk
