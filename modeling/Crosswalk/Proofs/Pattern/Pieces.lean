import Crosswalk.Facet.Pattern

/-!
# The pieces of a pattern

The text of a pattern falls into pieces: single characters, escapes, and property escapes with the
name in braces behind them. The first piece of a text can be told without looking at the pieces
behind it, except for a property escape, whose name reaches to the closing brace or to the end of
the text (`Piece.EndsBefore`).
-/

namespace Crosswalk

namespace Pattern

/-! ### Names in braces -/

/-- What stands up to the first closing brace and with it, and what stands behind it. Without a
closing brace nothing is left. -/
def splitBrace : List Char → List Char × List Char
  | [] => ([], [])
  | c :: rest =>
    if c = '\x7d' then ([c], rest) else (c :: (splitBrace rest).1, (splitBrace rest).2)

/-- Splits off a name in braces. It is empty if no brace is opened. -/
def splitName (text : List Char) : List Char × List Char :=
  if text.head? = some '\x7b' then splitBrace text else ([], text)

theorem splitBrace_append (text : List Char) :
    (splitBrace text).1 ++ (splitBrace text).2 = text := by
  induction text with
  | nil => rfl
  | cons c rest ih =>
      rw [splitBrace]
      split
      · rfl
      · exact congrArg (c :: ·) ih

theorem splitName_append (text : List Char) : (splitName text).1 ++ (splitName text).2 = text := by
  unfold splitName
  split
  · exact splitBrace_append text
  · rfl

/-- What is split off does not depend on what is left, if anything is. -/
theorem splitBrace_congr {name rest v : List Char} (h : splitBrace (name ++ rest) = (name, rest))
    (hv : rest = [] → v = []) : splitBrace (name ++ v) = (name, v) := by
  induction name with
  | nil =>
      cases rest with
      | nil => rw [hv rfl]; rfl
      | cons c rest =>
          rw [List.nil_append, splitBrace] at h
          split at h <;> exact nomatch h
  | cons c name ih =>
      rw [List.cons_append, splitBrace] at h ⊢
      split at h
      · next hc =>
          obtain ⟨rfl, -⟩ : [] = name ∧ name ++ rest = rest := by simpa using h
          rw [if_pos hc]
          rfl
      · next hc =>
          obtain ⟨hname, hrest⟩ := Prod.mk.inj h
          have hsplit := ih (Prod.ext (List.cons.inj hname).2 hrest)
          rw [if_neg hc, hsplit]

theorem splitName_congr {name rest v : List Char} (h : splitName (name ++ rest) = (name, rest))
    (hv : rest = [] → v = [])
    (hhead : rest.head? ≠ some '\x7b' → v.head? ≠ some '\x7b') :
    splitName (name ++ v) = (name, v) := by
  unfold splitName at h ⊢
  cases name with
  | nil =>
      rw [List.nil_append] at h ⊢
      split at h
      · next hbrace =>
          obtain ⟨c, rest, rfl⟩ := List.exists_cons_of_ne_nil
            (show rest ≠ [] by rintro rfl; exact nomatch hbrace)
          rw [splitBrace] at h
          split at h <;> exact nomatch h
      · next hbrace => rw [if_neg (hhead hbrace)]
  | cons c name =>
      rw [List.cons_append, List.head?_cons] at h
      split at h
      · next hc =>
          have hsplit : splitBrace (c :: name ++ v) = (c :: name, v) := splitBrace_congr h hv
          rw [List.cons_append, List.head?_cons, if_pos hc]
          exact hsplit
      · exact nomatch h

/-! ### Pieces -/

/-- A piece of a text. -/
inductive Piece where
  | char (c : Char) (h : c ≠ '\\')
  | escape (c : Char) (h : ¬(c = 'p' ∨ c = 'P'))
  /-- A property escape with its name in braces, the braces included. The name is empty if no brace
  is opened, and lacks the closing brace if the text ends before. -/
  | property (letter : Char) (name : List Char) (h : letter = 'p' ∨ letter = 'P')
  /-- A backslash that ends the text. -/
  | backslash

namespace Piece

def text : Piece → List Char
  | char c _ => [c]
  | escape c _ => ['\\', c]
  | property letter name _ => '\\' :: letter :: name
  | backslash => ['\\']

theorem text_ne_nil (p : Piece) : p.text ≠ [] := by
  cases p <;> exact List.cons_ne_nil _ _

/-- The piece ends where the text goes on like this. -/
def EndsBefore (rest : List Char) : Piece → Prop
  | property _ name _ => splitName (name ++ rest) = (name, rest)
  | backslash => rest = []
  | _ => True

end Piece

/-- The piece that a backslash begins, and what stands behind it. -/
def splitEscape : List Char → Piece × List Char
  | [] => (.backslash, [])
  | letter :: rest =>
    if hl : letter = 'p' ∨ letter = 'P' then
      (.property letter (splitName rest).1 hl, (splitName rest).2)
    else (.escape letter hl, rest)

/-- The first piece of a text, and what stands behind it. -/
def splitPiece? : List Char → Option (Piece × List Char)
  | [] => none
  | c :: rest => some (if hc : c = '\\' then splitEscape rest else (.char c hc, rest))

theorem splitEscape_spec (text : List Char) :
    (splitEscape text).1.text ++ (splitEscape text).2 = '\\' :: text ∧
      (splitEscape text).1.EndsBefore (splitEscape text).2 := by
  cases text with
  | nil => exact ⟨rfl, rfl⟩
  | cons letter rest =>
      rw [splitEscape]
      split
      · refine ⟨?_, ?_⟩
        · simp [Piece.text, splitName_append]
        · simp [Piece.EndsBefore, splitName_append]
      · exact ⟨rfl, trivial⟩

/-- A text is its first piece with what stands behind. -/
theorem eq_append_of_splitPiece? {text rest : List Char} {p : Piece}
    (h : splitPiece? text = some (p, rest)) : text = p.text ++ rest ∧ p.EndsBefore rest := by
  cases text with
  | nil => exact nomatch h
  | cons c text =>
      rw [splitPiece?, Option.some.injEq] at h
      split at h
      · next hc =>
          obtain ⟨htext, hends⟩ := splitEscape_spec text
          rw [h] at htext hends
          exact ⟨hc ▸ htext.symm, hends⟩
      · obtain ⟨rfl, rfl⟩ := Prod.mk.inj h
        exact ⟨rfl, trivial⟩

theorem splitPiece?_append {p : Piece} {rest : List Char} (h : p.EndsBefore rest) :
    splitPiece? (p.text ++ rest) = some (p, rest) := by
  cases p with
  | char c hc => exact congrArg some (dif_neg hc)
  | escape c hc => exact congrArg some (dif_neg hc)
  | property letter name hl =>
      have hsplit : splitName (name ++ rest) = (name, rest) := h
      have hescape : splitEscape (letter :: (name ++ rest)) = (.property letter name hl, rest) := by
        simp only [splitEscape, dif_pos hl, hsplit]
      exact congrArg some hescape
  | backslash =>
      obtain rfl : rest = [] := h
      rfl

theorem length_lt_of_splitPiece? {text rest : List Char} {p : Piece}
    (h : splitPiece? text = some (p, rest)) : rest.length < text.length := by
  obtain ⟨rfl, -⟩ := eq_append_of_splitPiece? h
  have hpos := List.length_pos_iff.2 p.text_ne_nil
  rw [List.length_append]
  omega

/-- The pieces of a text. -/
def pieces (text : List Char) : List Piece :=
  match _h : splitPiece? text with
  | none => []
  | some (p, rest) => p :: pieces rest
termination_by text.length
decreasing_by exact length_lt_of_splitPiece? ‹_›

@[simp] theorem pieces_nil : pieces [] = [] := by
  rw [pieces]
  rfl

theorem pieces_append {p : Piece} {rest : List Char} (h : p.EndsBefore rest) :
    pieces (p.text ++ rest) = p :: pieces rest := by
  rw [pieces]
  split
  · next hnone => exact nomatch hnone.symm.trans (splitPiece?_append h)
  · next hsome =>
      rw [splitPiece?_append h] at hsome
      obtain ⟨rfl, rfl⟩ := Prod.mk.inj (Option.some.inj hsome)
      rfl

/-- What holds of the empty text, and of a text if it holds behind its first piece, holds of all
texts. -/
theorem pieces_induction {motive : List Char → Prop} (nil : motive [])
    (append : ∀ (p : Piece) (rest : List Char), p.EndsBefore rest → motive rest →
      motive (p.text ++ rest)) (text : List Char) : motive text := by
  induction text using pieces.induct with
  | case1 text hnone =>
      cases text with
      | nil => exact nil
      | cons c rest => exact nomatch hnone
  | case2 text p rest hsome ih =>
      obtain ⟨rfl, hends⟩ := eq_append_of_splitPiece? hsome
      exact append p rest hends ih

/-- The pieces are all of the text. -/
theorem flatMap_text_pieces (text : List Char) : (pieces text).flatMap Piece.text = text := by
  induction text using pieces_induction with
  | nil => rw [pieces_nil, List.flatMap_nil]
  | append p rest hends ih => rw [pieces_append hends, List.flatMap_cons, ih]

end Pattern

end Crosswalk
