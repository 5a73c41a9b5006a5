import Crosswalk.Facet.Pattern
import Crosswalk.Regex
import Mathlib.Computability.Language

/-!
# The syntax of patterns

A pattern is a choice of branches, a branch is a row of atoms with quantifiers, and an atom is a set
of characters or an expression in parentheses. Every tree has a text, and a language that depends on
what the sets of characters are.

The sets are read in two ways. In XML Schema an escape like `\i` or `\d` is a set of characters that
rests on tables of Unicode, which an `Alphabet` stands for (`CharSet.has`). In a document the set is
the class that is written for it (`CharSet.class?`), which has fewer characters for some of the
escapes. A property escape has none, since it is left to the reader of the document.
-/

namespace Crosswalk

namespace Pattern

/-- Two lists behind one another, if there are both. -/
def joined? {α : Type} (a b : Option (List α)) : Option (List α) := a.bind fun u => b.map (u ++ ·)

section

variable {α : Type} (a b c : Option (List α)) (u v : List α)

@[simp] theorem joined?_none_left : joined? none b = none := rfl

@[simp] theorem joined?_some_left : joined? (some u) b = b.map (u ++ ·) := rfl

@[simp] theorem joined?_nil_right : joined? a (some []) = a := by cases a <;> simp

theorem joined?_assoc : joined? (joined? a b) c = joined? a (joined? b c) := by
  cases a <;> cases b <;> cases c <;> simp

theorem joined?_eq_some_iff : joined? a b = some u ↔
    ∃ v w, a = some v ∧ b = some w ∧ u = v ++ w := by
  simp only [joined?, Option.bind_eq_some_iff, Option.map_eq_some_iff]
  grind

end

/-! ### Escapes of many characters -/

/-- What the escapes of XML Schema rest on. -/
structure Alphabet where
  /-- The letters of XML. -/
  letter : Char → Prop
  /-- The characters of names. -/
  nameChar : Char → Prop
  /-- The characters of a category or block with a name. -/
  property : List Char → Char → Prop

/-- The sets that an escape names. -/
inductive EscapeKind where
  | space
  | nameStart
  | name
  | digit
  | word
  | property (name : List Char) (closed : '\x7d' ∉ name)

/-- An escape that stands for a set of characters, or for all others. -/
structure Escape where
  kind : EscapeKind
  negated : Bool

namespace Escape

/-- The letter behind the backslash. -/
def letter (e : Escape) : Char :=
  match e.kind, e.negated with
  | .space, false => 's'
  | .space, true => 'S'
  | .nameStart, false => 'i'
  | .nameStart, true => 'I'
  | .name, false => 'c'
  | .name, true => 'C'
  | .digit, false => 'd'
  | .digit, true => 'D'
  | .word, false => 'w'
  | .word, true => 'W'
  | .property _ _, false => 'p'
  | .property _ _, true => 'P'

/-- The name in braces. -/
def braced (e : Escape) : List Char :=
  match e.kind with
  | .property name _ => '\x7b' :: (name ++ ['\x7d'])
  | _ => []

def text (e : Escape) : List Char := '\\' :: e.letter :: e.braced

/-- What the translation writes. -/
def written? (inClass : Bool) (e : Escape) : Option (List Char) :=
  match e.kind with
  | .nameStart => (nameClass inClass e.negated e.letter Pattern.nameStart).toOption.map (·.1)
  | .name => (nameClass inClass e.negated e.letter Pattern.nameChar).toOption.map (·.1)
  | .property _ _ => (propertyText e.letter e.braced).toOption
  | _ => some e.text

/-- The characters in XML Schema. -/
def has (u : Alphabet) (e : Escape) (c : Char) : Prop :=
  let named := match e.kind with
    | .space => c ∈ [' ', '\t', '\n', '\r']
    | .nameStart => u.letter c ∨ c = '_' ∨ c = ':'
    | .name => u.nameChar c
    | .digit => u.property ['N', 'd'] c
    | .word => ¬(u.property ['P'] c ∨ u.property ['Z'] c ∨ u.property ['C'] c)
    | .property name _ => u.property name c
  if e.negated then ¬named else named

/-- The members of the class that is written, before a sign in front of them. -/
def members? (e : Escape) : Option (List ClassMember) :=
  match e.kind with
  | .nameStart => some [.range '_' '_', .range ':' ':', .range 'A' 'Z', .range 'a' 'z']
  | .name => some [.range '-' '-', .range '.' '.', .range '_' '_', .range ':' ':',
      .range 'A' 'Z', .range 'a' 'z', .range '0' '9']
  | .property _ _ => none
  | _ => Regex.namedMembers? e.letter

/-- The class that is written. -/
def class? (e : Escape) : Option CharClass :=
  match e.kind with
  | .nameStart => e.members?.map (⟨·, e.negated⟩)
  | .name => e.members?.map (⟨·, e.negated⟩)
  | _ => e.members?.map (⟨·, false⟩)

end Escape

/-! ### Sets of characters -/

/-- The characters that can stand behind a backslash for one character. -/
def marks : List Char :=
  ['n', 'r', 't', '\\', '|', '.', '?', '*', '+', '(', ')', '\x7b', '\x7d', '-', '[', ']', '^']

/-- A character, which is not one of those that have a meaning, or an escaped one. -/
inductive Single (special : List Char) where
  | plain (c : Char) (h : c ∉ special)
  | escaped (mark : Char) (h : mark ∈ marks)

namespace Single

variable {special : List Char}

def text : Single special → List Char
  | plain c _ => [c]
  | escaped mark _ => ['\\', mark]

/-- The character that is meant. -/
def value : Single special → Char
  | plain c _ => c
  | escaped mark _ =>
    if mark = 'n' then '\n' else if mark = 'r' then '\r' else if mark = 't' then '\t' else mark

end Single

/-- The characters that have a meaning in a class. -/
def classSpecial : List Char := ['\\', '-', '[', ']']

/-- The characters that have a meaning outside of classes. -/
def special : List Char :=
  ['.', '\\', '?', '*', '+', '(', ')', '|', '[', ']', '\x7b', '\x7d']

/-- A member of a class. -/
inductive Member where
  | single (c : Single classSpecial)
  | range (first last : Single classSpecial) (ordered : first.value ≤ last.value)
  | escape (e : Escape)

namespace Member

def text : Member → List Char
  | single c => c.text
  | range first last _ => first.text ++ '-' :: last.text
  | escape e => e.text

def written? : Member → Option (List Char)
  | escape e => e.written? true
  | m => some m.text

def has (u : Alphabet) : Member → Char → Prop
  | single c, x => x = c.value
  | range first last _, x => first.value ≤ x ∧ x ≤ last.value
  | escape e, x => e.has u x

def members? : Member → Option (List ClassMember)
  | single c => some [.range c.value c.value]
  | range first last _ => some [.range first.value last.value]
  | escape e => e.members?

/-- The member is no escape of many characters. -/
def IsPlain : Member → Prop
  | escape _ => False
  | _ => True

end Member

/-- The members of a class. A dash stands for itself in front of them or behind them. -/
structure CharGroup where
  negated : Bool
  leading : Bool
  members : List Member
  trailing : Bool
  nonempty : leading = true ∨ members ≠ []
  /-- A caret that stands first negates. -/
  first : negated = false → leading = false → (members.flatMap Member.text).head? ≠ some '^'

namespace CharGroup

/-- A dash or none. -/
def dash (stands : Bool) : List Char := if stands then ['-'] else []

/-- The sign of a negated class. -/
def sign (g : CharGroup) : List Char := if g.negated then ['^'] else []

/-- The texts of the members, one behind the other, as far as there is one for each. -/
def row? {α : Type} (f : Member → Option (List α)) : List Member → Option (List α)
  | [] => some []
  | m :: rest => joined? (f m) (row? f rest)

def text (g : CharGroup) : List Char :=
  g.sign ++ (dash g.leading ++ (g.members.flatMap Member.text ++ dash g.trailing))

def written? (g : CharGroup) : Option (List Char) :=
  (row? Member.written? g.members).map fun w =>
    g.sign ++ (dash g.leading ++ (w ++ dash g.trailing))

/-- The character is listed. -/
def Lists (u : Alphabet) (g : CharGroup) (c : Char) : Prop :=
  (g.leading = true ∨ g.trailing = true) ∧ c = '-' ∨ ∃ m ∈ g.members, m.has u c

def has (u : Alphabet) (g : CharGroup) (c : Char) : Prop :=
  if g.negated then ¬g.Lists u c else g.Lists u c

/-- The member that a dash makes. -/
def dashMember (stands : Bool) : List ClassMember := if stands then [.range '-' '-'] else []

def class? (g : CharGroup) : Option CharClass :=
  (row? Member.members? g.members).map fun ms =>
    ⟨dashMember g.leading ++ (ms ++ dashMember g.trailing), g.negated⟩

end CharGroup

/-- A class in brackets, from which another can be taken away. -/
inductive Bracketed where
  | all (g : CharGroup)
  | without (g : CharGroup) (b : Bracketed)

namespace Bracketed

def text : Bracketed → List Char
  | all g => '[' :: (g.text ++ [']'])
  | without g b => '[' :: (g.text ++ '-' :: (b.text ++ [']']))

def has (u : Alphabet) : Bracketed → Char → Prop
  | all g, c => g.has u c
  | without g b, c => g.has u c ∧ ¬b.has u c

def written? : Bracketed → Option (List Char)
  | all g => g.written?.map fun w => '[' :: (w ++ [']'])
  | without _ _ => none

def class? : Bracketed → Option CharClass
  | all g => g.class?
  | without _ _ => none

end Bracketed

/-- A set of characters. -/
inductive CharSet where
  | single (c : Single special)
  | any
  | escape (e : Escape)
  | bracketed (b : Bracketed)

namespace CharSet

def text : CharSet → List Char
  | single c => c.text
  | any => ['.']
  | escape e => e.text
  | bracketed b => b.text

/-- What the translation writes. The anchors of other dialects are no special characters here. -/
def written? : CharSet → Option (List Char)
  | single (.plain c _) => some (if c = '^' ∨ c = '$' then ['\\', c] else [c])
  | escape e => e.written? false
  | bracketed b => b.written?
  | s => some s.text

/-- The characters in XML Schema. -/
def has (u : Alphabet) : CharSet → Char → Prop
  | single c, x => x = c.value
  | any, x => x ≠ '\n' ∧ x ≠ '\r'
  | escape e, x => e.has u x
  | bracketed b, x => b.has u x

/-- The class that is written. -/
def class? : CharSet → Option CharClass
  | single c => some (.single c.value)
  | any => some Regex.anyChar
  | escape e => e.class?
  | bracketed b => b.class?

/-- The character is one of the class that is written, if there is one. -/
def IsRead (s : CharSet) (c : Char) : Prop := ∀ k, s.class? = some k → k.has c = true

end CharSet

/-! ### Quantifiers -/

/-- A number in decimal digits. -/
structure Count where
  digits : List Char
  nonempty : digits ≠ []
  isDigit : ∀ c ∈ digits, c.isDigit = true

def Count.value (n : Count) : ℕ :=
  n.digits.foldl (fun n c => n * 10 + (c.toNat - '0'.toNat)) 0

/-- How often an atom stands in a row. -/
inductive Quantifier where
  | once
  | optional
  | any
  | positive
  | exactly (n : Count)
  | atLeast (n : Count)
  | between (least most : Count) (ordered : least.value ≤ most.value)

namespace Quantifier

def text : Quantifier → List Char
  | once => []
  | optional => ['?']
  | any => ['*']
  | positive => ['+']
  | exactly n => '\x7b' :: (n.digits ++ ['\x7d'])
  | atLeast n => '\x7b' :: (n.digits ++ [',', '\x7d'])
  | between least most _ => '\x7b' :: (least.digits ++ ',' :: (most.digits ++ ['\x7d']))

def least : Quantifier → ℕ
  | once => 1
  | optional => 0
  | any => 0
  | positive => 1
  | exactly n => n.value
  | atLeast n => n.value
  | between least _ _ => least.value

def most : Quantifier → Option ℕ
  | once => some 1
  | optional => some 1
  | any => none
  | positive => none
  | exactly n => some n.value
  | atLeast _ => none
  | between _ most _ => some most.value

/-- The texts that so many of a language make in a row. -/
def repeated (q : Quantifier) (l : Language Char) : Language Char :=
  {cs | ∃ n, q.least ≤ n ∧ (∀ m, q.most = some m → n ≤ m) ∧ cs ∈ l ^ n}

theorem least_le_most (q : Quantifier) {m : ℕ} (h : q.most = some m) : q.least ≤ m := by
  cases q with
  | between least most ordered => exact Option.some.inj h ▸ ordered
  | _ => simp_all [least, most]

end Quantifier

/-! ### Expressions -/

mutual

/-- A choice of branches. -/
inductive Expression where
  | single (b : Branch)
  | choice (b : Branch) (e : Expression)

/-- A row of atoms with quantifiers. -/
inductive Branch where
  | nil
  | cons (a : Atom) (q : Quantifier) (rest : Branch)

/-- A set of characters or an expression in parentheses. -/
inductive Atom where
  | chars (s : CharSet)
  | group (e : Expression)

end

instance : Inhabited Expression := ⟨.single .nil⟩

mutual

def Expression.text : Expression → List Char
  | .single b => b.text
  | .choice b e => b.text ++ '|' :: e.text

def Branch.text : Branch → List Char
  | .nil => []
  | .cons a q rest => a.text ++ (q.text ++ rest.text)

def Atom.text : Atom → List Char
  | .chars s => s.text
  | .group e => '(' :: (e.text ++ [')'])

end

mutual

/-- What the translation writes for an expression. -/
def Expression.written? : Expression → Option (List Char)
  | .single b => b.written?
  | .choice b e => joined? b.written? (e.written?.map ('|' :: ·))

def Branch.written? : Branch → Option (List Char)
  | .nil => some []
  | .cons a q rest => joined? a.written? (rest.written?.map (q.text ++ ·))

def Atom.written? : Atom → Option (List Char)
  | .chars s => s.written?
  | .group e => e.written?.map fun w => '(' :: (w ++ [')'])

end

mutual

/-- The texts that an expression matches as a whole, where `has` says what the sets of characters
are. -/
def Expression.language (has : CharSet → Char → Prop) : Expression → Language Char
  | .single b => b.language has
  | .choice b e => b.language has + e.language has

def Branch.language (has : CharSet → Char → Prop) : Branch → Language Char
  | .nil => 1
  | .cons a q rest => q.repeated (a.language has) * rest.language has

def Atom.language (has : CharSet → Char → Prop) : Atom → Language Char
  | .chars s => {cs | ∃ c, cs = [c] ∧ has s c}
  | .group e => e.language has

end

mutual

/-- The sets of characters in an expression. -/
def Expression.charSets : Expression → List CharSet
  | .single b => b.charSets
  | .choice b e => b.charSets ++ e.charSets

def Branch.charSets : Branch → List CharSet
  | .nil => []
  | .cons a _ rest => a.charSets ++ rest.charSets

def Atom.charSets : Atom → List CharSet
  | .chars s => [s]
  | .group e => e.charSets

end

end Pattern

end Crosswalk
