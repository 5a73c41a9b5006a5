/-!
# Blanks and pieces

A blank is a character with the Unicode property White_Space. Leading and trailing blanks do not
count in a literal, a documentation text or a reference, and blanks separate the members of a
list of names.

A text with separators in it falls into pieces, one more than there are separators; pieces may be
empty. Joined with the separator they are the text again.
-/

namespace Crosswalk

/-! ### Blanks -/

namespace Text

/-- The code points with the property White_Space, as inclusive ranges. -/
def blankRanges : List (Nat × Nat) :=
  [(0x9, 0xD), (0x20, 0x20), (0x85, 0x85), (0xA0, 0xA0), (0x1680, 0x1680), (0x2000, 0x200A),
    (0x2028, 0x2029), (0x202F, 0x202F), (0x205F, 0x205F), (0x3000, 0x3000)]

/-- Whether a character is a blank. -/
def isBlank (c : Char) : Bool :=
  blankRanges.any fun (first, last) => first ≤ c.toNat && c.toNat ≤ last

/-- The characters without leading blanks. -/
def trimStartChars (cs : List Char) : List Char := cs.dropWhile isBlank

/-- The characters without leading and trailing blanks. -/
def trimChars (cs : List Char) : List Char :=
  (trimStartChars (trimStartChars cs).reverse).reverse

/-- A text without leading blanks. -/
def trimStart (s : String) : String := String.ofList (trimStartChars s.toList)

/-- A text without leading and trailing blanks. -/
def trim (s : String) : String := String.ofList (trimChars s.toList)

/-- The longest stretches without a blank; `word` is the one under way, last character first. -/
def wordsFrom (word : List Char) : List Char → List String
  | [] => if word.isEmpty then [] else [String.ofList word.reverse]
  | c :: rest =>
    if isBlank c then
      if word.isEmpty then wordsFrom [] rest
      else String.ofList word.reverse :: wordsFrom [] rest
    else wordsFrom (c :: word) rest

/-- The members of a list separated by blanks. -/
def words (s : String) : List String := wordsFrom [] s.toList

@[simp] theorem words_empty : words "" = [] := rfl

/-- Texts with a separator between them. -/
def join (separator : String) : List String → String
  | [] => ""
  | [s] => s
  | s :: t :: rest => s ++ separator ++ join separator (t :: rest)

@[simp] theorem join_nil (separator : String) : join separator [] = "" := rfl

@[simp] theorem join_singleton (separator s : String) : join separator [s] = s := rfl

theorem join_cons_cons (separator s t : String) (rest : List String) :
    join separator (s :: t :: rest) = s ++ separator ++ join separator (t :: rest) := rfl

end Text

/-! ### Pieces -/

namespace Text

/-- The pieces between separators; `piece` is the one under way, last character first. -/
def piecesFrom (separator : Char) (piece : List Char) : List Char → List (List Char)
  | [] => [piece.reverse]
  | c :: rest =>
    if c = separator then piece.reverse :: piecesFrom separator [] rest
    else piecesFrom separator (c :: piece) rest

/-- The pieces between separators. -/
def pieces (separator : Char) (cs : List Char) : List (List Char) := piecesFrom separator [] cs

/-- A text has at least one piece. -/
theorem piecesFrom_ne_nil (separator : Char) (piece cs : List Char) :
    piecesFrom separator piece cs ≠ [] := by
  induction cs generalizing piece with
  | nil => simp [piecesFrom]
  | cons c rest ih =>
      unfold piecesFrom
      split
      · simp
      · exact ih (c :: piece)

/-- Joined with the separator, the pieces are the text again. -/
theorem intercalate_piecesFrom (separator : Char) (piece cs : List Char) :
    [separator].intercalate (piecesFrom separator piece cs) = piece.reverse ++ cs := by
  induction cs generalizing piece with
  | nil => simp [piecesFrom, List.intercalate]
  | cons c rest ih =>
      unfold piecesFrom
      split
      · next h =>
          obtain ⟨first, others, hp⟩ := List.exists_cons_of_ne_nil
            (piecesFrom_ne_nil separator [] rest)
          have := ih []
          rw [hp] at this ⊢
          simp only [List.intercalate, List.intersperse_cons_cons, List.flatten_cons] at this ⊢
          simp [this, h]
      · rw [ih]
        simp

/-- What follows the last separator. -/
def lastPiece (isSeparator : Char → Bool) (cs : List Char) : List Char :=
  (cs.reverse.takeWhile fun c => !isSeparator c).reverse

end Text

end Crosswalk
