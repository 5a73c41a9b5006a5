import Crosswalk.Proofs.Pattern.Pieces
import Crosswalk.Proofs.Pattern.Translation

/-!
# Settled patterns

The translation writes something for each piece of a pattern, which depends on whether the piece
stands in a class (`toOption_append`). A text is settled if no piece in it is one that the
translation refuses or writes in another way. The translation leaves a text as it is if and only if
the text is settled (`toOption_eq_self_iff`), and it writes settled texts only
(`isSettled_of_toOption`).
-/

namespace Crosswalk

namespace Pattern

namespace Piece

/-- Whether a class is open behind the piece. -/
def opens (inClass : Bool) : Piece → Bool
  | char c _ => if c = '[' then true else if c = ']' then false else inClass
  | _ => inClass

/-- The piece stands for itself: it is no name escape, no backslash without a letter and no escape
of a block, and neither an anchor outside of a class nor a bracket opened inside of one. -/
def IsSettled (inClass : Bool) : Piece → Prop
  | char c _ => (c = '^' ∨ c = '$' → inClass = true) ∧ (c = '[' → inClass = false)
  | escape c _ => c ∉ ['i', 'I', 'c', 'C']
  | property _ name _ => ¬ ['\x7b', 'I', 's'] <+: name
  | backslash => False

/-- What the translation writes for the piece, if anything. -/
def translate? (inClass : Bool) : Piece → Option (List Char)
  | char c _ => (plain inClass c).toOption.map (·.1)
  | escape c _ => (escaped inClass c).toOption.map (·.1)
  | property letter name _ => (propertyText letter name).toOption
  | backslash => none

end Piece

/-! ### What is written for a piece -/

variable {inClass : Bool}

@[simp] theorem toOption_finish (inClass : Bool) :
    (finish (.of inClass)).toOption = some [] := by
  cases inClass <;> rfl

@[simp] theorem step_of (inClass : Bool) (c : Char) : step (.of inClass) c = plain inClass c := by
  cases inClass <;> rfl

theorem exists_place_of_toOption {written : Step} {u : List Char}
    (h : written.toOption.map (·.1) = some u) : ∃ place, written = .ok (u, place) := by
  cases written with
  | error e => cases h
  | ok w => exact ⟨w.2, congrArg Except.ok (Prod.ext (Option.some.inj h) rfl)⟩

/-- A step that leads to one place only. -/
theorem translates_of_step {start stop : Place} {c : Char}
    (h : ∀ u place, step start c = .ok (u, place) → place = stop) :
    Translates start [c] ((step start c).toOption.map (·.1)) stop := by
  cases hstep : step start c with
  | ok written => exact Translates.step_ok (u := written.1) (by rw [hstep, ← h _ _ hstep])
  | error e => exact Translates.step_error hstep

theorem place_of_plain {c : Char} (hc : c ≠ '\\') {u : List Char} {place : Place}
    (h : plain inClass c = .ok (u, place)) : place = .of ((Piece.char c hc).opens inClass) := by
  unfold plain at h
  cases inClass <;> grind [Piece.opens, Place.of]

theorem place_of_escaped {c : Char} (hc : ¬(c = 'p' ∨ c = 'P')) {u : List Char} {place : Place}
    (h : escaped inClass c = .ok (u, place)) : place = .of inClass := by
  unfold escaped at h
  split at h
  · exact place_of_nameClass h
  split at h
  · exact place_of_nameClass h
  · exact (Prod.mk.inj (Except.ok.inj h)).2.symm

/-- The name of a property escape is read up to the closing brace, or to the end of the text. -/
theorem toOption_property (letter : Char) {read : List Char} (hread : read ≠ [])
    (text : List Char) : (translateFrom (.property inClass letter read) text).toOption =
      joined? (propertyText letter (read.reverse ++ (splitBrace text).1)).toOption
        (translateFrom (.of inClass) (splitBrace text).2).toOption := by
  induction text generalizing read with
  | nil =>
      have hfinish : finish (.property inClass letter read) =
          propertyText letter read.reverse := rfl
      simp [splitBrace, hfinish]
  | cons c text ih =>
      rw [splitBrace]
      split
      · next hc =>
          subst hc
          exact translates_property inClass letter List.not_mem_nil hread text
      · next hc =>
          have hstep : step (.property inClass letter read) c =
              .ok ([], .property inClass letter (c :: read)) := by
            simp [step, property, hread, hc]
          have hsilent := Translates.step_ok hstep text
          rw [List.singleton_append] at hsilent
          rw [hsilent, ih (List.cons_ne_nil c read)]
          simp

/-- A property escape has the name in braces that follows its letter. -/
theorem toOption_named (inClass : Bool) (letter : Char) (text : List Char) :
    (translateFrom (.property inClass letter []) text).toOption =
      joined? (propertyText letter (splitName text).1).toOption
        (translateFrom (.of inClass) (splitName text).2).toOption := by
  rw [splitName]
  split
  · next hbrace =>
      obtain ⟨text, rfl⟩ := List.head?_eq_some_iff.1 hbrace
      have hstep : step (.property inClass letter []) '\x7b' =
          .ok ([], .property inClass letter ['\x7b']) := by
        simp [step, property]
      have hsilent := Translates.step_ok hstep text
      rw [List.singleton_append] at hsilent
      rw [hsilent, toOption_property letter (List.cons_ne_nil _ _), splitBrace, if_neg (by decide)]
      simp
  · next hbrace =>
      have hempty : propertyText letter [] = .ok ['\\', letter] := rfl
      cases text with
      | nil =>
          have hfinish : finish (.property inClass letter []) = propertyText letter [] := rfl
          simp [hfinish]
      | cons c rest =>
          -- the escape ends in front of the character, which is read where the escape began
          have hc : c ≠ '\x7b' := fun h => hbrace (congrArg some h)
          have hstep : step (.property inClass letter []) c =
              (plain inClass c).map fun w => ('\\' :: letter :: w.1, w.2) := by
            simp [step, property, hc]
          cases hplain : plain inClass c with
          | error e =>
              rw [hplain] at hstep
              have hbare : step (.of inClass) c = .error e := (step_of inClass c).trans hplain
              rw [translateFrom_cons, translateFrom_cons, hstep, hbare]
              rfl
          | ok w =>
              rw [hplain] at hstep
              have hnamed := Translates.step_ok hstep rest
              have hbare := Translates.step_ok ((step_of inClass c).trans hplain) rest
              rw [List.singleton_append] at hnamed hbare
              rw [hnamed, hbare, hempty]
              exact joined?_assoc (some ['\\', letter]) (some w.1) _

/-- The translation of a text is what it writes for the first piece and the translation of what is
left. -/
theorem toOption_append {p : Piece} {rest : List Char} (h : p.EndsBefore rest) :
    (translateFrom (.of inClass) (p.text ++ rest)).toOption =
      joined? (p.translate? inClass) (translateFrom (.of (p.opens inClass)) rest).toOption := by
  cases p with
  | char c hc =>
      have hplain : Translates (.of inClass) [c] _ (.of ((Piece.char c hc).opens inClass)) :=
        translates_of_step fun _ _ hstep =>
          place_of_plain hc ((step_of inClass c).symm.trans hstep)
      rw [step_of] at hplain
      exact hplain rest
  | escape c hc =>
      have hescaped : Translates (.escape inClass) [c] _ (.of inClass) :=
        translates_of_step fun _ _ => place_of_escaped hc
      exact Translates.cons_silent (step_backslash inClass) hescaped rest
  | property letter name hl =>
      have hsplit : splitName (name ++ rest) = (name, rest) := h
      have hletter : Translates (.of inClass) ['\\', letter] (some [])
          (.property inClass letter []) :=
        .cons_silent (step_backslash inClass) (.step_ok (by rcases hl with rfl | rfl <;> rfl))
      have hname := toOption_named inClass letter (name ++ rest)
      rw [hsplit] at hname
      exact (hletter (name ++ rest)).trans (by rw [hname]; exact congrFun Option.map_id _)
  | backslash =>
      obtain rfl : rest = [] := h
      exact Translates.step_ok (step_backslash inClass) []

/-! ### Settled texts -/

/-- Each piece of the text stands for itself in its place. -/
def IsSettled (inClass : Bool) (text : List Char) : Prop :=
  ∀ before p after, pieces text = before ++ p :: after →
    p.IsSettled (before.foldl Piece.opens inClass)

@[simp] theorem isSettled_nil : IsSettled inClass [] := by
  intro before p after h
  rw [pieces_nil] at h
  exact absurd h.symm (by simp)

theorem isSettled_append {p : Piece} {rest : List Char} (h : p.EndsBefore rest) :
    IsSettled inClass (p.text ++ rest) ↔
      p.IsSettled inClass ∧ IsSettled (p.opens inClass) rest := by
  unfold IsSettled
  rw [pieces_append h]
  constructor
  · intro hsettled
    exact ⟨hsettled [] p _ rfl, fun before q after hq =>
      hsettled (p :: before) q after (congrArg (p :: ·) hq)⟩
  · rintro ⟨hp, hrest⟩ before q after hq
    rcases List.cons_eq_append_iff.1 hq with ⟨rfl, hcons⟩ | ⟨before, rfl, hbefore⟩
    · obtain ⟨rfl, -⟩ := List.cons.inj hcons
      exact hp
    · exact hrest before q after hbefore

theorem isSettled_cons {c : Char} (hc : c ≠ '\\') (rest : List Char) :
    IsSettled inClass (c :: rest) ↔
      ((c = '^' ∨ c = '$' → inClass = true) ∧ (c = '[' → inClass = false)) ∧
        IsSettled (if c = '[' then true else if c = ']' then false else inClass) rest :=
  isSettled_append (p := .char c hc) trivial

theorem isSettled_escape {c : Char} (hc : ¬(c = 'p' ∨ c = 'P')) (rest : List Char) :
    IsSettled inClass ('\\' :: c :: rest) ↔
      c ∉ ['i', 'I', 'c', 'C'] ∧ IsSettled inClass rest :=
  isSettled_append (p := .escape c hc) trivial

theorem Piece.translate?_of_isSettled {p : Piece} (h : p.IsSettled inClass) :
    p.translate? inClass = some p.text := by
  cases p with
  | char c hc =>
      simp only [IsSettled] at h
      simp only [translate?, plain, text]
      cases inClass <;> grind [Except.toOption]
  | escape c hc =>
      have hname : ¬(c = 'i' ∨ c = 'I') ∧ ¬(c = 'c' ∨ c = 'C') := by
        simpa [IsSettled, and_assoc] using h
      simp [translate?, escaped, text, hname, hc, Except.toOption]
  | property letter name hl =>
      have hblock : ¬ ['\x7b', 'I', 's'].isPrefixOf name := mt List.isPrefixOf_iff_prefix.1 h
      simp [translate?, propertyText, text, hblock, Except.toOption]
  | backslash => exact h.elim

/-- What is written for a name escape: its members alone within a class, else in brackets. -/
theorem cases_of_nameClass {negated : Bool} {letter : Char} {members u : List Char} {place : Place}
    (h : nameClass inClass negated letter members = .ok (u, place)) :
    inClass = true ∧ u = members ∨ inClass = false ∧
      (u = '[' :: (members ++ [']']) ∨ u = '[' :: '^' :: (members ++ [']'])) := by
  cases inClass <;> cases negated
  case true.true => cases h
  case true.false => exact .inl ⟨rfl, (Prod.mk.inj (Except.ok.inj h)).1.symm⟩
  case false.false => exact .inr ⟨rfl, .inl (Prod.mk.inj (Except.ok.inj h)).1.symm⟩
  case false.true => exact .inr ⟨rfl, .inr (Prod.mk.inj (Except.ok.inj h)).1.symm⟩

theorem head_of_nameClass {negated : Bool} {letter : Char} {members u : List Char} {place : Place}
    (hmembers : members ∈ [nameStart, nameChar])
    (h : nameClass inClass negated letter members = .ok (u, place)) :
    ∃ rest, u = '[' :: rest ∨ u = '_' :: rest ∨ u = '\\' :: '-' :: rest := by
  rcases cases_of_nameClass h with ⟨-, rfl⟩ | ⟨-, rfl | rfl⟩
  · simp only [List.mem_cons, List.not_mem_nil, or_false] at hmembers
    rcases hmembers with rfl | rfl
    · exact ⟨_, .inr (.inl rfl)⟩
    · exact ⟨_, .inr (.inr rfl)⟩
  · exact ⟨_, .inl rfl⟩
  · exact ⟨_, .inl rfl⟩

/-- What is written for a piece: the piece itself if it is settled, an anchor behind a backslash, or
the members of a class. -/
theorem Piece.cases_of_translate? {p : Piece} {u : List Char} (hu : p.translate? inClass = some u) :
    (p.IsSettled inClass ∧ u = p.text) ∨
      (∃ c, (c = '^' ∨ c = '$') ∧ p.text = [c] ∧ u = ['\\', c] ∧ inClass = false ∧
        p.opens inClass = false) ∨
      ∃ letter ∈ ['i', 'I', 'c', 'C'], ∃ members ∈ [nameStart, nameChar], ∃ negated place,
        p.text = ['\\', letter] ∧ nameClass inClass negated letter members = .ok (u, place) ∧
        p.opens inClass = inClass := by
  by_cases hp : p.IsSettled inClass
  · exact .inl ⟨hp, Option.some.inj (hu.symm.trans (p.translate?_of_isSettled hp))⟩
  refine .inr ?_
  cases p with
  | char c hc =>
      have hanchor : inClass = false ∧ (c = '^' ∨ c = '$') ∧ u = ['\\', c] := by
        simp only [IsSettled] at hp
        simp only [translate?, plain] at hu
        cases inClass <;> grind [Except.toOption]
      obtain ⟨rfl, hanchor, rfl⟩ := hanchor
      refine .inl ⟨c, hanchor, rfl, rfl, rfl, ?_⟩
      rcases hanchor with rfl | rfl <;> rfl
  | escape c hc =>
      have hletter : c ∈ ['i', 'I', 'c', 'C'] := not_not.1 hp
      obtain ⟨place, hstep⟩ : ∃ place, escaped inClass c = .ok (u, place) :=
        exists_place_of_toOption hu
      refine .inr ⟨c, hletter, ?_⟩
      unfold escaped at hstep
      split at hstep
      · exact ⟨nameStart, by simp, _, place, rfl, hstep, rfl⟩
      split at hstep
      · exact ⟨nameChar, by simp, _, place, rfl, hstep, rfl⟩
      · next hstart hname => exact absurd hletter (by simp_all)
  | property letter name hl =>
      have hblock : ['\x7b', 'I', 's'] <+: name := not_not.1 hp
      rw [translate?, propertyText, if_pos (List.isPrefixOf_iff_prefix.2 hblock)] at hu
      cases hu
  | backslash => cases hu

/-- A piece that is written as it stands is settled. -/
theorem Piece.isSettled_of_append_eq {p : Piece} {u v rest : List Char}
    (hu : p.translate? inClass = some u) (h : u ++ v = p.text ++ rest) : p.IsSettled inClass := by
  rcases p.cases_of_translate? hu with
    ⟨hp, -⟩ | ⟨c, hc, htext, rfl, -, -⟩ | ⟨letter, hl, members, hmembers, _, _, htext, hclass, -⟩
  · exact hp
  · rw [htext] at h
    rcases hc with rfl | rfl <;> exact absurd (List.cons.inj h).1 (by decide)
  · obtain ⟨more, rfl | rfl | rfl⟩ := head_of_nameClass hmembers hclass
    all_goals rw [htext] at h
    · exact absurd (List.cons.inj h).1 (by decide)
    · exact absurd (List.cons.inj h).1 (by decide)
    · obtain rfl : '-' = letter := (List.cons.inj (List.cons.inj h).2).1
      exact absurd hl (by decide)

/-- What the translation leaves as it is. -/
theorem toOption_eq_self_iff (text : List Char) :
    (translateFrom (.of inClass) text).toOption = some text ↔ IsSettled inClass text := by
  induction text using pieces_induction generalizing inClass with
  | nil => simp
  | append p rest hends ih =>
      rw [toOption_append hends, isSettled_append hends, joined?_eq_some_iff, ← ih]
      constructor
      · rintro ⟨u, v, hu, hv, happend⟩
        have hsettled := p.isSettled_of_append_eq hu happend.symm
        obtain rfl := Option.some.inj (hu.symm.trans (p.translate?_of_isSettled hsettled))
        obtain rfl := List.append_cancel_left happend
        exact ⟨hsettled, hv⟩
      · rintro ⟨hsettled, hrest⟩
        exact ⟨p.text, rest, p.translate?_of_isSettled hsettled, hrest, rfl⟩

/-! ### Translated texts -/

theorem Piece.EndsBefore.congr {p : Piece} {rest v : List Char} (h : p.EndsBefore rest)
    (hv : rest = [] → v = []) (hhead : rest.head? ≠ some '\x7b' → v.head? ≠ some '\x7b') :
    p.EndsBefore v := by
  cases p with
  | property letter name hl => exact splitName_congr h hv hhead
  | backslash => exact hv h
  | _ => trivial

/-- Nothing but a brace is written with a brace in front. -/
theorem Piece.head_of_translate? {p : Piece} {u : List Char} (hu : p.translate? inClass = some u)
    (hhead : p.text.head? ≠ some '\x7b') : ∃ c rest, u = c :: rest ∧ c ≠ '\x7b' := by
  rcases p.cases_of_translate? hu with
    ⟨-, rfl⟩ | ⟨c, -, -, rfl, -, -⟩ | ⟨_, -, members, hmembers, _, _, -, hclass, -⟩
  · obtain ⟨c, rest, htext⟩ := List.exists_cons_of_ne_nil p.text_ne_nil
    exact ⟨c, rest, htext, by rintro rfl; exact hhead (congrArg List.head? htext)⟩
  · exact ⟨'\\', [c], rfl, by decide⟩
  · obtain ⟨more, rfl | rfl | rfl⟩ := head_of_nameClass hmembers hclass <;>
      exact ⟨_, _, rfl, by decide⟩

theorem head?_of_toOption {text w : List Char}
    (h : (translateFrom (.of inClass) text).toOption = some w)
    (hhead : text.head? ≠ some '\x7b') : w.head? ≠ some '\x7b' := by
  cases text using pieces_induction with
  | nil =>
      obtain rfl := Option.some.inj ((toOption_finish inClass).symm.trans h)
      exact hhead
  | append p rest hends =>
      rw [toOption_append hends] at h
      obtain ⟨u, v, hu, -, rfl⟩ := (joined?_eq_some_iff ..).1 h
      have hpiece : p.text.head? ≠ some '\x7b' := by
        rwa [List.head?_append_of_ne_nil _ p.text_ne_nil] at hhead
      obtain ⟨c, u, rfl, hc⟩ := p.head_of_translate? hu hpiece
      simpa using hc

/-- The members of a class that stand for a name escape are settled. -/
theorem isSettled_members {members : List Char} (h : members ∈ [nameStart, nameChar])
    (v : List Char) : IsSettled true (members ++ v) ↔ IsSettled true v := by
  simp only [List.mem_cons, List.not_mem_nil, or_false] at h
  rcases h with rfl | rfl <;> simp [nameStart, nameChar, isSettled_cons, isSettled_escape]

theorem isSettled_nameClass {negated : Bool} {letter : Char} {members u v : List Char}
    {place : Place} (h : members ∈ [nameStart, nameChar])
    (hu : nameClass inClass negated letter members = .ok (u, place))
    (hv : IsSettled inClass v) : IsSettled inClass (u ++ v) := by
  have hopen : IsSettled true (members ++ ']' :: v) ↔ IsSettled false v := by
    rw [isSettled_members h, isSettled_cons (by decide)]
    simp
  rcases cases_of_nameClass hu with ⟨rfl, rfl⟩ | ⟨rfl, rfl | rfl⟩
  · exact (isSettled_members h v).2 hv
  · simpa [isSettled_cons, hopen] using hv
  · simpa [isSettled_cons, hopen] using hv

/-- What is written for a piece is settled, in front of what is. -/
theorem isSettled_translate {p : Piece} {u v : List Char} (hu : p.translate? inClass = some u)
    (hv : IsSettled (p.opens inClass) v) (hends : p.EndsBefore v) : IsSettled inClass (u ++ v) := by
  rcases p.cases_of_translate? hu with
    ⟨hp, rfl⟩ | ⟨c, hc, -, rfl, rfl, hopens⟩ | ⟨_, -, members, hmembers, _, _, -, hclass, hopens⟩
  · exact (isSettled_append hends).2 ⟨hp, hv⟩
  · rw [hopens] at hv
    rcases hc with rfl | rfl <;> exact (isSettled_escape (by decide) v).2 ⟨by decide, hv⟩
  · rw [hopens] at hv
    exact isSettled_nameClass hmembers hclass hv

/-- Only settled texts are written. -/
theorem isSettled_of_toOption {text w : List Char}
    (h : (translateFrom (.of inClass) text).toOption = some w) : IsSettled inClass w := by
  induction text using pieces_induction generalizing inClass w with
  | nil =>
      obtain rfl := Option.some.inj ((toOption_finish inClass).symm.trans h)
      exact isSettled_nil
  | append p rest hends ih =>
      rw [toOption_append hends] at h
      obtain ⟨u, v, hu, hv, rfl⟩ := (joined?_eq_some_iff ..).1 h
      refine isSettled_translate hu (ih hv) (hends.congr ?_ (head?_of_toOption hv))
      rintro rfl
      exact (Option.some.inj ((toOption_finish _).symm.trans hv)).symm

theorem translate_eq_ok_iff {pattern q : String} : translate pattern = .ok q ↔
    (translateFrom (.of false) pattern.toList).toOption = some q.toList := by
  change _ ↔ (translateFrom .outside pattern.toList).toOption = _
  unfold translate
  cases translateFrom .outside pattern.toList <;> simp [Except.toOption, String.ext_iff]

/-- What is written for a pattern is translated to itself; and it is made up of pieces none of which
is a name escape, a backslash without a letter, the escape of a block, an anchor outside of a class
or a bracket opened inside of one. -/
theorem translation_settled {pattern q : String} (h : translate pattern = .ok q) :
    translate q = .ok q ∧ (pieces q.toList).flatMap Piece.text = q.toList ∧
      ∀ before p after, pieces q.toList = before ++ p :: after →
        p.IsSettled (before.foldl Piece.opens false) := by
  have hsettled : IsSettled false q.toList := isSettled_of_toOption (translate_eq_ok_iff.1 h)
  exact ⟨translate_eq_ok_iff.2 ((toOption_eq_self_iff q.toList).2 hsettled),
    flatMap_text_pieces q.toList, hsettled⟩

/-- Name escapes are spelled out, anchors outside of classes are escaped, and a property escape may
lack its name or end with the text. -/
theorem translation_settled_unclosed :
    let q := "\\$[_:A-Za-z][^\\-._:A-Za-z0-9$]\\p\x7bLu\x7d\\P[\\p\x7bx[^"
    translate "$\\i[^\\c$]\\p\x7bLu\x7d\\P[\\p\x7bx[^" = .ok q ∧ translate q = .ok q ∧
      (pieces q.toList).flatMap Piece.text = q.toList ∧
      ∀ before p after, pieces q.toList = before ++ p :: after →
        p.IsSettled (before.foldl Piece.opens false) := by
  have h : translate "$\\i[^\\c$]\\p\x7bLu\x7d\\P[\\p\x7bx[^" =
      .ok "\\$[_:A-Za-z][^\\-._:A-Za-z0-9$]\\p\x7bLu\x7d\\P[\\p\x7bx[^" := by rfl
  exact ⟨h, translation_settled h⟩

end Pattern

end Crosswalk
