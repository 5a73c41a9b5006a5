import Crosswalk.Proofs.Pattern.Syntax

/-!
# What the translation writes

The walk over the text of a pattern writes the text that the syntax tree says, piece by piece, and
comes back to where it was (`Translates`). It stops at the pieces for which nothing can be written,
and then nothing is written at all.
-/

namespace Crosswalk

namespace Pattern

/-- From one place to another, the walk over a text writes what is said, or is refused. -/
def Translates (start : Place) (text : List Char) (written? : Option (List Char)) (stop : Place) :
    Prop :=
  ∀ rest, (translateFrom start (text ++ rest)).toOption =
    joined? written? (translateFrom stop rest).toOption

namespace Translates

variable {start middle stop : Place} {text more : List Char} {w v : Option (List Char)}

theorem nil : Translates start [] (some []) start := fun rest => by simp

theorem append (h : Translates start text w middle) (h' : Translates middle more v stop) :
    Translates start (text ++ more) (joined? w v) stop := fun rest => by
  rw [List.append_assoc, h, h', joined?_assoc]

theorem step_ok {c : Char} {u : List Char} (h : step start c = .ok (u, stop)) :
    Translates start [c] (some u) stop := fun rest => by
  rw [List.singleton_append, translateFrom_cons, h]
  cases htail : translateFrom stop rest <;>
    simp [htail, bind, Except.bind, pure, Except.pure, Except.toOption]

theorem step_error {c : Char} {e : Refusal} (h : step start c = .error e) :
    Translates start (c :: text) none stop := fun rest => by
  rw [List.cons_append, translateFrom_cons, h]
  rfl

theorem cons {c : Char} {u : List Char} (h : step start c = .ok (u, middle))
    (h' : Translates middle text w stop) : Translates start (c :: text) (w.map (u ++ ·)) stop :=
  (step_ok h).append h'

/-- A step that writes nothing yet. -/
theorem cons_silent {c : Char} (h : step start c = .ok ([], middle))
    (h' : Translates middle text w stop) : Translates start (c :: text) w stop := by
  simpa using cons h h'

end Translates

/-! ### Sets of characters -/

variable (inClass : Bool)

theorem step_backslash : step (.of inClass) '\\' = .ok ([], .escape inClass) := by
  cases inClass <;> rfl

theorem translates_mark {mark : Char} (h : mark ∈ marks) :
    Translates (.of inClass) ['\\', mark] (some ['\\', mark]) (.of inClass) := by
  have hstep : step (.escape inClass) mark = .ok (['\\', mark], .of inClass) := by
    change escaped inClass mark = _
    unfold escaped
    rw [if_neg, if_neg, if_neg] <;> (rintro (rfl | rfl) <;> revert h <;> decide)
  exact .cons_silent (step_backslash inClass) (.step_ok hstep)

theorem translates_classSingle (c : Single classSpecial) :
    Translates .inClass c.text (some c.text) .inClass := by
  cases c with
  | escaped mark h => exact translates_mark true h
  | plain c h =>
      have hc : c ≠ '\\' ∧ c ≠ '-' ∧ c ≠ '[' ∧ c ≠ ']' := by simpa [classSpecial] using h
      exact Translates.step_ok (u := [c]) (by simp [step, plain, hc])

/-- The name of a property escape is read up to the closing brace. -/
theorem translates_property (letter : Char) {name read : List Char} (hname : '\x7d' ∉ name)
    (hread : read ≠ []) : Translates (.property inClass letter read) (name ++ ['\x7d'])
      (propertyText letter (read.reverse ++ (name ++ ['\x7d']))).toOption (.of inClass) := by
  induction name generalizing read with
  | nil =>
      have hstep : step (.property inClass letter read) '\x7d' =
          (propertyText letter ('\x7d' :: read).reverse).map fun written =>
            (written, .of inClass) := by
        simp [step, property, hread]
      rw [List.nil_append, ← List.reverse_cons]
      cases htext : propertyText letter ('\x7d' :: read).reverse with
      | ok u => exact Translates.step_ok (by rw [hstep, htext]; rfl)
      | error e => exact Translates.step_error (by rw [hstep, htext]; rfl)
  | cons c name ih =>
      obtain ⟨hc, hname⟩ : '\x7d' ≠ c ∧ '\x7d' ∉ name := by simpa using hname
      have hstep : step (.property inClass letter read) c =
          .ok ([], .property inClass letter (c :: read)) := by
        simp [step, property, hread, Ne.symm hc]
      simpa using Translates.cons_silent hstep (ih hname (List.cons_ne_nil c read))

theorem place_of_nameClass {inClass negated : Bool} {letter : Char} {members u : List Char}
    {place : Place} (h : nameClass inClass negated letter members = .ok (u, place)) :
    place = .of inClass := by
  cases inClass <;> cases negated <;> cases h <;> rfl

theorem translates_nameClass {inClass negated : Bool} {letter : Char} {members : List Char}
    (h : step (.escape inClass) letter = nameClass inClass negated letter members) :
    Translates (.escape inClass) [letter]
      ((nameClass inClass negated letter members).toOption.map (·.1)) (.of inClass) := by
  cases hclass : nameClass inClass negated letter members with
  | ok written =>
      refine Translates.step_ok (u := written.1) (h.trans (hclass.trans ?_))
      rw [← place_of_nameClass hclass]
  | error e => exact Translates.step_error (h.trans hclass)

theorem translates_escape (e : Escape) :
    Translates (.of inClass) e.text (e.written? inClass) (.of inClass) := by
  suffices h : Translates (.escape inClass) (e.letter :: e.braced) (e.written? inClass)
      (.of inClass) from .cons_silent (step_backslash inClass) h
  obtain ⟨kind, negated⟩ := e
  cases kind with
  | nameStart => exact translates_nameClass (by cases negated <;> rfl)
  | name => exact translates_nameClass (by cases negated <;> rfl)
  | property name closed =>
      have hletter : ∀ letter ∈ ['p', 'P'], step (.escape inClass) letter =
          .ok ([], .property inClass letter []) := by simp [step, escaped]
      have hbrace : ∀ letter, step (.property inClass letter []) '\x7b' =
          .ok ([], .property inClass letter ['\x7b']) := by simp [step, property]
      have hname : ∀ letter ∈ ['p', 'P'], Translates (.escape inClass)
          (letter :: '\x7b' :: (name ++ ['\x7d']))
          (propertyText letter ('\x7b' :: (name ++ ['\x7d']))).toOption (.of inClass) :=
        fun letter h => .cons_silent (hletter letter h) (.cons_silent (hbrace letter)
          (translates_property inClass letter closed (List.cons_ne_nil '\x7b' [])))
      cases negated
      · exact hname 'p' (by decide)
      · exact hname 'P' (by decide)
  | _ => cases negated <;> cases inClass <;> exact Translates.step_ok rfl

theorem translates_member (m : Member) :
    Translates .inClass m.text m.written? .inClass := by
  cases m with
  | single c => exact translates_classSingle c
  | range first last ordered =>
      have hdash : step .inClass '-' = .ok (['-'], .inClass) := rfl
      exact (translates_classSingle first).append (.cons hdash (translates_classSingle last))
  | escape e => exact translates_escape true e

theorem translates_members (ms : List Member) :
    Translates .inClass (ms.flatMap Member.text) (CharGroup.row? Member.written? ms) .inClass := by
  induction ms with
  | nil => exact Translates.nil
  | cons m rest ih => exact (translates_member m).append ih

theorem translates_dash (stands : Bool) :
    Translates .inClass (CharGroup.dash stands) (some (CharGroup.dash stands)) .inClass := by
  cases stands with
  | false => exact Translates.nil
  | true => exact Translates.step_ok rfl

theorem translates_sign (g : CharGroup) :
    Translates .inClass g.sign (some g.sign) .inClass := by
  unfold CharGroup.sign
  split
  · exact Translates.step_ok rfl
  · exact Translates.nil

theorem translates_group (g : CharGroup) : Translates .inClass g.text g.written? .inClass := by
  have h := (translates_sign g).append ((translates_dash g.leading).append
    ((translates_members g.members).append (translates_dash g.trailing)))
  unfold CharGroup.written?
  cases hw : CharGroup.row? Member.written? g.members <;> simpa [CharGroup.text, hw] using h

theorem translates_bracketed (b : Bracketed) : Translates .outside b.text b.written? .outside := by
  have hopening : step .outside '[' = .ok (['['], .inClass) := rfl
  cases b with
  | all g =>
      have hclosing : step .inClass ']' = .ok ([']'], .outside) := rfl
      have h := Translates.cons hopening ((translates_group g).append (.step_ok hclosing))
      cases hw : g.written? <;> simpa [Bracketed.text, Bracketed.written?, hw] using h
  | without g b =>
      have hdash : step .inClass '-' = .ok (['-'], .inClass) := rfl
      -- the walk stops at the bracket of the inner class
      have hinner : Translates .inClass (b.text ++ [']']) none .outside := by
        cases b <;> exact Translates.step_error (e := .subtraction) rfl
      have h := Translates.cons hopening ((translates_group g).append (.cons hdash hinner))
      cases hw : g.written? <;> simpa [Bracketed.text, Bracketed.written?, hw] using h

theorem translates_charSet (s : CharSet) : Translates .outside s.text s.written? .outside := by
  cases s with
  | single c =>
      cases c with
      | escaped mark h => exact translates_mark false h
      | plain c h =>
          refine Translates.step_ok ?_
          have hc : c ≠ '\\' ∧ c ≠ '[' := by simp_all [special]
          by_cases hanchor : c = '^' ∨ c = '$' <;> simp [step, plain, hc, hanchor]
  | any => exact Translates.step_ok rfl
  | escape e => exact translates_escape false e
  | bracketed b => exact translates_bracketed b

/-! ### Expressions -/

theorem translates_plain {text : List Char} (h : ∀ c ∈ text, c ∉ ['\\', '[', '^', '$']) :
    Translates .outside text (some text) .outside := by
  induction text with
  | nil => exact Translates.nil
  | cons c rest ih =>
      obtain ⟨hc, hrest⟩ := List.forall_mem_cons.1 h
      refine Translates.cons (u := [c]) ?_ (ih hrest)
      simp_all [step, plain]

theorem translates_quantifier (q : Quantifier) :
    Translates .outside q.text (some q.text) .outside := by
  have hdigits : ∀ (n : Count), ∀ c ∈ n.digits, c ∉ ['\\', '[', '^', '$'] := by
    intro n c hc hspecial
    have hdigit := n.isDigit c hc
    simp only [List.mem_cons, List.not_mem_nil, or_false] at hspecial
    rcases hspecial with rfl | rfl | rfl | rfl <;> revert hdigit <;> decide
  have hmark : ∀ c ∈ ['?', '*', '+', '\x7b', '\x7d', ','], c ∉ ['\\', '[', '^', '$'] := by simp
  refine translates_plain fun c hc => ?_
  cases q <;> simp only [Quantifier.text, List.mem_cons, List.mem_append, List.not_mem_nil,
    or_false] at hc <;> grind

mutual

theorem translates_expression : (e : Expression) →
    Translates .outside e.text e.written? .outside
  | .single b => translates_branch b
  | .choice b e => by
      have hbar : step .outside '|' = .ok (['|'], .outside) := rfl
      have h := (translates_branch b).append (.cons hbar (translates_expression e))
      simpa [Expression.text, Expression.written?] using h

theorem translates_branch : (b : Branch) → Translates .outside b.text b.written? .outside
  | .nil => Translates.nil
  | .cons a q rest => (translates_atom a).append
      ((translates_quantifier q).append (translates_branch rest))

theorem translates_atom : (a : Atom) → Translates .outside a.text a.written? .outside
  | .chars s => translates_charSet s
  | .group e => by
      have hopening : step .outside '(' = .ok (['('], .outside) := rfl
      have hclosing : step .outside ')' = .ok ([')'], .outside) := rfl
      have h := Translates.cons hopening ((translates_expression e).append (.step_ok hclosing))
      cases hw : e.written? <;> simpa [Atom.text, Atom.written?, hw] using h

end

/-- The translation of a pattern writes what is said for its tree, or is refused. -/
theorem translate_toOption (e : Expression) {pattern : String} (h : pattern.toList = e.text) :
    (translate pattern).toOption = e.written?.map String.ofList := by
  have hwalk := translates_expression e []
  rw [List.append_nil, ← h] at hwalk
  unfold translate
  cases hp : translateFrom .outside pattern.toList <;> cases hw : e.written? <;>
    simp_all [Except.toOption, finish]

end Pattern

end Crosswalk
