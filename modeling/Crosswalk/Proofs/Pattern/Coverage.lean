import Crosswalk.Proofs.Pattern.Syntax

/-!
# Sets of characters in translation

The class that is written for a set of characters has the same characters as in XML Schema if no
escape of many characters is in it, the set of all characters apart, which also has the carriage
return then (`CharSet.isRead_iff`, `CharSet.isRead_of_has`). For escapes the class can be smaller.
What an expression matches is matched in translation as long as its sets keep the characters of the
text (`Expression.Keeps`).
-/

namespace Crosswalk

theorem ClassMember.has_range_self (c x : Char) :
    (ClassMember.range c c).has x = true ↔ x = c := by
  simp only [ClassMember.has, Bool.and_eq_true, decide_eq_true_eq]
  constructor
  · exact fun ⟨hle, hge⟩ => Char.le_antisymm hge hle
  · rintro rfl
    exact ⟨Char.le_refl _, Char.le_refl _⟩

namespace Pattern

/-! ### Sets without escapes of many characters -/

theorem Member.has_iff (u : Alphabet) {m : Member} (h : m.IsPlain) : ∃ ms, m.members? = some ms ∧
    ∀ x, (ms.any fun k => k.has x) = true ↔ m.has u x := by
  cases m with
  | single c => exact ⟨_, rfl, by simp [Member.has, ClassMember.has_range_self]⟩
  | range first last ordered => exact ⟨_, rfl, by simp [Member.has, ClassMember.has]⟩
  | escape e => exact h.elim

theorem CharGroup.row?_has_iff (u : Alphabet) {members : List Member}
    (h : ∀ m ∈ members, m.IsPlain) : ∃ ms, row? Member.members? members = some ms ∧
      ∀ x, (ms.any fun k => k.has x) = true ↔ ∃ m ∈ members, m.has u x := by
  induction members with
  | nil => exact ⟨[], rfl, by simp⟩
  | cons m rest ih =>
      obtain ⟨hm, hrest⟩ := List.forall_mem_cons.1 h
      obtain ⟨ms, hms, hhas⟩ := Member.has_iff u hm
      obtain ⟨ns, hns, hrest⟩ := ih hrest
      refine ⟨ms ++ ns, by rw [row?, hms, hns]; rfl, fun x => ?_⟩
      rw [List.any_append, Bool.or_eq_true, hhas, hrest]
      simp

theorem CharGroup.class?_has_iff (u : Alphabet) {g : CharGroup} (h : ∀ m ∈ g.members, m.IsPlain) :
    ∃ k, g.class? = some k ∧ ∀ x, k.has x = true ↔ g.has u x := by
  obtain ⟨ms, hms, hhas⟩ := row?_has_iff u h
  refine ⟨_, by rw [class?, hms]; rfl, fun x => ?_⟩
  have hdash : ∀ stands, ((dashMember stands).any fun k => k.has x) = true ↔
      stands = true ∧ x = '-' := by
    intro stands
    cases stands <;> simp [dashMember, ClassMember.has_range_self]
  have hlists : ((dashMember g.leading ++ (ms ++ dashMember g.trailing)).any fun k => k.has x) =
      true ↔ g.Lists u x := by
    simp only [List.any_append, Bool.or_eq_true, hdash, hhas, Lists]
    grind
  unfold CharClass.has CharGroup.has
  rw [← hlists]
  cases g.negated <;> simp

namespace CharSet

/-- No escape of many characters is in the set, and nothing is taken away from it. -/
def IsPlain : CharSet → Prop
  | bracketed (.all g) => ∀ m ∈ g.members, m.IsPlain
  | bracketed (.without _ _) => False
  | escape _ => False
  | _ => True

theorem isRead_iff_of_class? {s : CharSet} {k : CharClass} (h : s.class? = some k) (c : Char) :
    s.IsRead c ↔ k.has c = true := by
  simp [IsRead, h]

/-- The class has the characters of the set. -/
theorem isRead_iff (u : Alphabet) {s : CharSet} (h : s.IsPlain) (hany : s ≠ any) (c : Char) :
    s.IsRead c ↔ s.has u c := by
  cases s with
  | single s =>
      rw [isRead_iff_of_class? rfl]
      simp [CharClass.has, CharClass.single, ClassMember.has_range_self, has]
  | any => exact absurd rfl hany
  | escape e => exact h.elim
  | bracketed b =>
      cases b with
      | without g b => exact h.elim
      | all g =>
          obtain ⟨k, hk, hhas⟩ := CharGroup.class?_has_iff u h
          exact (isRead_iff_of_class? (s := .bracketed (.all g)) hk c).trans (hhas c)

theorem isRead_of_has (u : Alphabet) {s : CharSet} (h : s.IsPlain) {c : Char} (hc : s.has u c) :
    s.IsRead c := by
  by_cases hany : s = any
  · subst hany
    rw [isRead_iff_of_class? rfl]
    have hne : (ClassMember.range '\n' '\n').has c = false :=
      Bool.eq_false_iff.2 fun h => hc.1 ((ClassMember.has_range_self _ _).1 h)
    simp [CharClass.has, Regex.anyChar, hne]
  · exact (isRead_iff u h hany c).2 hc

end CharSet

/-! ### Languages -/

/-- No set of characters in the expression loses a character of the text in translation. -/
def Expression.Keeps (u : Alphabet) (x : Expression) (text : List Char) : Prop :=
  ∀ s ∈ x.charSets, ∀ c ∈ text, s.has u c → s.IsRead c

theorem Expression.keeps_of_isPlain (u : Alphabet) {x : Expression}
    (h : ∀ s ∈ x.charSets, s.IsPlain) (text : List Char) : x.Keeps u text :=
  fun s hs _ _ hc => s.isRead_of_has u (h s hs) hc

variable {has has' : CharSet → Char → Prop}

theorem mem_pow_of_forall {l m : Language Char} {n : ℕ} {cs : List Char} (hcs : cs ∈ l ^ n)
    (h : ∀ us ∈ l, (∀ c ∈ us, c ∈ cs) → us ∈ m) : cs ∈ m ^ n := by
  induction n generalizing cs with
  | zero => exact hcs
  | succ n ih =>
      rw [pow_succ', Language.mem_mul] at hcs ⊢
      obtain ⟨us, hus, vs, hvs, rfl⟩ := hcs
      exact ⟨us, h us hus fun c hc => List.mem_append_left _ hc, vs,
        ih hvs fun ws hws hsub => h ws hws fun c hc => List.mem_append_right _ (hsub c hc), rfl⟩

/-- Characters of a set make a text that matches the set with a quantifier. -/
theorem Quantifier.mem_repeated_of_forall (q : Quantifier) {s : CharSet} {cs : List Char}
    (h : ∀ c ∈ cs, has s c) (hleast : q.least ≤ cs.length) (hmost : ∀ m ∈ q.most, cs.length ≤ m) :
    cs ∈ q.repeated ((Atom.chars s).language has) := by
  have hpow : cs ∈ (Atom.chars s).language has ^ cs.length := by
    clear hleast hmost
    induction cs with
    | nil => rfl
    | cons c rest ih =>
        obtain ⟨hc, hrest⟩ := List.forall_mem_cons.1 h
        rw [List.length_cons, pow_succ']
        exact Language.mem_mul.2 ⟨[c], ⟨c, rfl, hc⟩, rest, ih hrest, rfl⟩
  exact ⟨cs.length, hleast, hmost, hpow⟩

mutual

/-- If the sets of characters grow by the characters of a text, it is still matched. -/
theorem Expression.mem_language_of_forall : (x : Expression) → ∀ cs,
    (∀ s ∈ x.charSets, ∀ c ∈ cs, has s c → has' s c) → cs ∈ x.language has → cs ∈ x.language has'
  | .single b, cs, h, hcs => b.mem_language_of_forall cs h hcs
  | .choice b x, cs, h, hcs => by
      rcases (Language.mem_add _ _ _).1 hcs with hcs | hcs
      · exact .inl (b.mem_language_of_forall cs (fun s hs => h s (List.mem_append_left _ hs)) hcs)
      · exact .inr (x.mem_language_of_forall cs (fun s hs => h s (List.mem_append_right _ hs)) hcs)

theorem Branch.mem_language_of_forall : (b : Branch) → ∀ cs,
    (∀ s ∈ b.charSets, ∀ c ∈ cs, has s c → has' s c) → cs ∈ b.language has → cs ∈ b.language has'
  | .nil, cs, h, hcs => hcs
  | .cons a q b, cs, h, hcs => by
      obtain ⟨us, ⟨n, hleast, hmost, hus⟩, vs, hvs, rfl⟩ := Language.mem_mul.1 hcs
      refine Language.mem_mul.2 ⟨us, ⟨n, hleast, hmost, mem_pow_of_forall hus fun ws hws hsub =>
        a.mem_language_of_forall ws (fun s hs c hc => ?_) hws⟩, vs,
        b.mem_language_of_forall vs (fun s hs c hc => ?_) hvs, rfl⟩
      · exact h s (List.mem_append_left _ hs) c (List.mem_append_left _ (hsub c hc))
      · exact h s (List.mem_append_right _ hs) c (List.mem_append_right _ hc)

theorem Atom.mem_language_of_forall : (a : Atom) → ∀ cs,
    (∀ s ∈ a.charSets, ∀ c ∈ cs, has s c → has' s c) → cs ∈ a.language has → cs ∈ a.language has'
  | .chars s, cs, h, ⟨c, hc, hhas⟩ =>
      ⟨c, hc, h s (List.mem_singleton_self s) c (by simp [hc]) hhas⟩
  | .group x, cs, h, hcs => x.mem_language_of_forall cs h hcs

end

end Pattern

end Crosswalk
