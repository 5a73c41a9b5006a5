import Crosswalk.Proofs.Pattern.Tokens
import Crosswalk.Proofs.Pattern.Translation
import Crosswalk.Proofs.Regex.Language

/-!
# What a written pattern finds

The tokens of an expression are put together to a regular expression with the language of the syntax
tree, where every set of characters is the class that is written for it. So the anchored expression
of a list of alternatives, if it can be read, is found in the texts that one of the alternatives
matches as a whole (`found_anchored`).
-/

namespace Crosswalk

namespace Regex

/-- The alternatives of a frame have the languages. -/
structure Frame.Denotes (f : Frame) (earlier current : Language Char) : Prop where
  branches : f.branches.elim (earlier = 0) fun r => r.Denotes earlier
  branch : f.branch.Denotes current

namespace Frame.Denotes

variable {f : Frame} {e l m : Language Char} {r : Regex}

theorem fresh : (Frame.mk none .empty none).Denotes 0 1 := ⟨rfl, Regex.Denotes.empty⟩

theorem whole (h : f.Denotes e l) : f.whole.Denotes (e + l) := by
  have hbranches := h.branches
  unfold Frame.whole
  cases hf : f.branches with
  | none =>
      rw [hf] at hbranches
      obtain rfl : e = 0 := hbranches
      simpa using h.branch
  | some left =>
      rw [hf] at hbranches
      exact Regex.Denotes.alt hbranches h.branch

theorem next (h : f.Denotes e l) : f.next.Denotes (e + l) 1 := ⟨h.whole, Regex.Denotes.empty⟩

theorem push (h : f.Denotes e l) (hr : r.Denotes m) : (f.push r).Denotes e (l * m) :=
  ⟨h.branches, h.branch.andThen hr⟩

theorem pushFixed (h : f.Denotes e l) (hr : r.Denotes m) : (f.pushFixed r).Denotes e (l * m) where
  branches := h.branches
  branch := by
    rw [Frame.branch, Frame.pushFixed]
    simpa using h.branch.andThen hr

end Frame.Denotes

end Regex

namespace Pattern

open Regex

theorem Quantifier.repeated_once (l : Language Char) : Quantifier.once.repeated l = l := by
  ext cs
  constructor
  · rintro ⟨n, hleast, hmost, h⟩
    obtain rfl : n = 1 := Nat.le_antisymm (hmost 1 rfl) hleast
    simpa using h
  · exact fun h => ⟨1, Nat.le_refl 1, fun m hm => by simp_all [Quantifier.most], by simpa using h⟩

/-- A quantifier behind a piece repeats it. -/
theorem ofTokens?_quantifier (q : Quantifier) {f : Frame} {r : Regex} {e l m : Language Char}
    (hf : f.Denotes e l) (hr : r.Denotes m) (around : List Frame) (rest : List Token) :
    ∃ f' : Frame, ofTokens? around (f.push r) (q.tokens ++ rest) = ofTokens? around f' rest ∧
      f'.Denotes e (l * q.repeated m) := by
  by_cases hq : q = .once
  · subst hq
    exact ⟨f.push r, rfl, by simpa [Quantifier.repeated_once] using hf.push hr⟩
  · have hread : q.tokens = [.repetition q.least q.most] := by
      cases q <;> first | rfl | exact absurd rfl hq
    have hbefore : (Frame.mk f.branches f.branch none).Denotes e l :=
      ⟨hf.branches, by simpa [Frame.branch] using hf.branch⟩
    rw [hread]
    exact ⟨_, rfl, hbefore.pushFixed (hr.repeated fun m => q.least_le_most)⟩

mutual

/-- Tokens of an expression, read from the beginning of a branch on, end in a frame that has its
language beside the earlier alternatives. -/
theorem ofTokens?_expression : (x : Expression) → ∀ ts, x.tokens? = some ts →
    ∀ around (f : Frame) (e : Language Char) rest, f.Denotes e 1 →
    ∃ f' : Frame, ofTokens? around f (ts ++ rest) = ofTokens? around f' rest ∧
      f'.whole.Denotes (e + x.language CharSet.IsRead)
  | .single b, ts, h, around, f, e, rest, hf => by
      obtain ⟨f', hread, hf'⟩ := ofTokens?_branch b ts h around f e 1 rest hf
      exact ⟨f', hread, by simpa [Expression.language] using hf'.whole⟩
  | .choice b x, ts, h, around, f, e, rest, hf => by
      obtain ⟨us, vs, hb, hvs, rfl⟩ := (joined?_eq_some_iff _ _ _).1 h
      obtain ⟨vs, hx, rfl⟩ := Option.map_eq_some_iff.1 hvs
      obtain ⟨f', hread, hf'⟩ := ofTokens?_branch b us hb around f e 1 (.bar :: vs ++ rest) hf
      obtain ⟨last, hlast, hwhole⟩ :=
        ofTokens?_expression x vs hx around f'.next _ rest hf'.next
      refine ⟨last, by rw [List.append_assoc, hread]; exact hlast, ?_⟩
      simpa [Expression.language, add_assoc] using hwhole

theorem ofTokens?_branch : (b : Branch) → ∀ ts, b.tokens? = some ts →
    ∀ around (f : Frame) (e l : Language Char) rest, f.Denotes e l →
    ∃ f' : Frame, ofTokens? around f (ts ++ rest) = ofTokens? around f' rest ∧
      f'.Denotes e (l * b.language CharSet.IsRead)
  | .nil, ts, h, around, f, e, l, rest, hf => by
      cases h
      exact ⟨f, rfl, by simpa [Branch.language] using hf⟩
  | .cons a q b, ts, h, around, f, e, l, rest, hf => by
      obtain ⟨us, vs, ha, hvs, rfl⟩ := (joined?_eq_some_iff _ _ _).1 h
      obtain ⟨vs, hb, rfl⟩ := Option.map_eq_some_iff.1 hvs
      obtain ⟨r, hr, hatom⟩ := ofTokens?_atom a us ha around f (q.tokens ++ vs ++ rest)
      obtain ⟨f', hread, hf'⟩ := ofTokens?_quantifier q hf hr around (vs ++ rest)
      obtain ⟨last, hlast, hlanguage⟩ := ofTokens?_branch b vs hb around f' e _ rest hf'
      refine ⟨last, ?_, by simpa [Branch.language, mul_assoc] using hlanguage⟩
      rw [List.append_assoc, hatom, List.append_assoc, hread, hlast]

theorem ofTokens?_atom : (a : Atom) → ∀ ts, a.tokens? = some ts →
    ∀ around (f : Frame) rest, ∃ r : Regex, r.Denotes (a.language CharSet.IsRead) ∧
      ofTokens? around f (ts ++ rest) = ofTokens? around (f.push r) rest
  | .chars s, ts, h, around, f, rest => by
      obtain ⟨kind, hkind, rfl⟩ := Option.map_eq_some_iff.1 h
      refine ⟨.one kind, ?_, rfl⟩
      have hread : ∀ c, CharSet.IsRead s c ↔ kind.has c = true := by simp [CharSet.IsRead, hkind]
      simpa [Atom.language, hread] using Regex.Denotes.one kind
  | .group x, ts, h, around, f, rest => by
      obtain ⟨ts, hx, rfl⟩ := Option.map_eq_some_iff.1 h
      obtain ⟨f', hread, hwhole⟩ :=
        ofTokens?_expression x ts hx (f :: around) {} 0 (.closing :: rest) .fresh
      refine ⟨f'.whole, by simpa [Atom.language] using hwhole, ?_⟩
      rw [List.cons_append, List.append_assoc]
      exact hread

end

/-! ### Alternatives -/

/-- The branches of two expressions. -/
def Expression.or : Expression → Expression → Expression
  | .single b, y => .choice b y
  | .choice b x, y => .choice b (x.or y)

namespace Expression

theorem written?_or : (x y : Expression) →
    (x.or y).written? = joined? x.written? (y.written?.map ('|' :: ·))
  | .single b, y => rfl
  | .choice b x, y => by
      rw [Expression.or, written?, written?_or x y, written?]
      cases b.written? <;> cases x.written? <;> cases y.written? <;> simp

theorem language_or (has : CharSet → Char → Prop) : (x y : Expression) →
    (x.or y).language has = x.language has + y.language has
  | .single b, y => rfl
  | .choice b x, y => by
      rw [Expression.or, language, language_or has x y, language, add_assoc]

theorem charSets_or : (x y : Expression) → (x.or y).charSets = x.charSets ++ y.charSets
  | .single b, y => rfl
  | .choice b x, y => by
      rw [Expression.or, charSets, charSets_or x y, charSets, List.append_assoc]

end Expression

/-- The texts are what is written for the expressions. -/
abbrev AreWritten (texts : List String) (expressions : List Expression) : Prop :=
  List.Forall₂ (fun text x => x.written? = some text.toList) texts expressions

/-- One expression is written as all texts with bars between them. -/
theorem exists_joined {texts : List String} {expressions : List Expression}
    (h : AreWritten texts expressions) (hne : texts ≠ []) :
    ∃ x : Expression, x.written? = some (Text.join "|" texts).toList ∧
      (∀ has cs, cs ∈ x.language has ↔ ∃ y ∈ expressions, cs ∈ y.language has) ∧
      ∀ s ∈ x.charSets, ∃ y ∈ expressions, s ∈ y.charSets := by
  induction h with
  | nil => exact absurd rfl hne
  | @cons text y texts expressions hy hrest ih =>
      cases hrest with
      | nil => exact ⟨y, hy, by simp, by simp⟩
      | @cons text' y' texts' expressions' hy' hrest' =>
          obtain ⟨x, hx, hlanguage, hsets⟩ := ih (List.cons_ne_nil _ _)
          refine ⟨y.or x, ?_, fun has cs => ?_, fun s hs => ?_⟩
          · rw [Expression.written?_or, hy, hx, Text.join_cons_cons]
            simp
          · rw [Expression.language_or, Language.mem_add, hlanguage]
            simp
          · rw [Expression.charSets_or, List.mem_append] at hs
            rcases hs with hs | hs
            · exact ⟨y, List.mem_cons_self, hs⟩
            · obtain ⟨z, hz, hs⟩ := hsets s hs
              exact ⟨z, List.mem_cons_of_mem _ hz, hs⟩

theorem toList_anchored (texts : List String) : (anchored texts).toList =
    ['^'] ++ (['(', '?', ':'] ++ ((Text.join "|" texts).toList ++ ([')'] ++ ['$']))) := by
  simp [anchored]

/-- What the anchored expression of alternatives is read as. -/
theorem ofText?_anchored {texts : List String} {x : Expression}
    (hx : x.written? = some (Text.join "|" texts).toList) : Regex.ofText? (anchored texts) =
      x.tokens?.bind fun ts =>
        ofTokens? [] {} (.start :: .opening :: (ts ++ [.closing, .stop])) := by
  have hstart : Reads IsBare ['^'] (some [.start]) := reads_token fun _ _ => rfl
  have hopening : Reads IsBare ['(', '?', ':'] (some [.opening]) :=
    Reads.token (t := some .opening) (List.cons_ne_nil _ _) fun _ _ => rfl
  have hstop : Reads IsBare ['$'] (some [.stop]) := reads_token fun _ _ => rfl
  have hend : Reads IsBare ([')'] ++ ['$']) (some [.closing, .stop]) :=
    (reads_closing (P := IsBare)).append hstop fun _ _ => .cons (by decide) (by decide) _
  have hbody := (reads_expression x _ hx).append hend fun _ _ => .cons (by decide) (by decide) _
  have hall := hstart.append (hopening.append hbody fun rest _ => by
    rw [List.append_assoc]
    exact x.isBare_append hx (.cons (by decide) (by decide) _))
    fun _ _ => .cons (by decide) (by decide) _
  rw [← toList_anchored] at hall
  obtain ⟨left, -, hread⟩ :=
    hall [] (by simp [IsBare]) (anchored texts).toList.length (by rw [List.append_nil])
  rw [List.append_nil] at hread
  have hnil : tokens? left [] = some [] := by cases left <;> rfl
  unfold Regex.ofText?
  dsimp only
  rw [hread, hnil]
  cases x.tokens? <;> simp

/-- If the anchored expression of alternatives can be read, it is found in the texts that one of
them matches as a whole. -/
theorem found_anchored {texts : List String} {expressions : List Expression}
    (h : AreWritten texts expressions) (hne : texts ≠ []) {r : Regex}
    (hr : Regex.ofText? (anchored texts) = some r) (text : String) :
    r.found text = true ↔ ∃ x ∈ expressions, text.toList ∈ x.language CharSet.IsRead := by
  obtain ⟨x, hx, hlanguage, -⟩ := exists_joined h hne
  rw [ofText?_anchored hx, Option.bind_eq_some_iff] at hr
  obtain ⟨ts, hts, hr⟩ := hr
  obtain ⟨f, hread, hwhole⟩ := ofTokens?_expression x ts hts [Frame.pushFixed {} .atStart] {} 0
    [.closing, .stop] .fresh
  obtain rfl : (atStart.andThen f.whole).andThen atEnd = r := by
    have hend : (((Frame.pushFixed {} .atStart).push f.whole).pushFixed .atEnd).whole = r :=
      Option.some.inj (hread.symm.trans hr)
    rw [← hend]
    exact (andThen_empty _).symm
  rw [zero_add] at hwhole
  rw [hwhole.found_between, hlanguage]

end Pattern

end Crosswalk
