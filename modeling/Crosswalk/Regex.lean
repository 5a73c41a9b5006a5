/-!
# Regular expressions

An expression is searched for: a text matches if some part of it does, and the two anchors tie a
part to the ends of the text. `Regex.partials` gives what is left of an expression behind a
character, as a list of alternatives; the expressions that can be left while a text is read are
finitely many, and `Regex.found` keeps the set of them. Two expressions that leave the same are
one, so that a text is read once however many ways there are to match it.

To be read, an expression is cut into tokens, a class in brackets or an escape being one of them, and
the tokens are put together along the parentheses. Text without a reading is refused: parentheses or
brackets that do not match, a repetition of nothing, and bounds or ranges whose ends are in the wrong
order.
-/

namespace Crosswalk

/-- Characters that belong to a class together. -/
inductive ClassMember where
  | range (first last : Char)
  /-- All characters that none of the ranges has. -/
  | outside (ranges : List (Char × Char))
  deriving DecidableEq, Repr

/-- A class of characters. -/
structure CharClass where
  members : List ClassMember
  negated : Bool := false
  deriving DecidableEq, Repr

/-- Whether a character belongs to it. -/
def ClassMember.has (m : ClassMember) (c : Char) : Bool :=
  match m with
  | range first last => first ≤ c && c ≤ last
  | outside ranges => !ranges.any fun r => r.1 ≤ c && c ≤ r.2

/-- Whether a character belongs to the class. -/
def CharClass.has (k : CharClass) (c : Char) : Bool := (k.members.any fun m => m.has c) != k.negated

/-- The class of one character. -/
def CharClass.single (c : Char) : CharClass := ⟨[.range c c], false⟩

/-- A regular expression. -/
inductive Regex where
  /-- The empty text. -/
  | empty
  /-- A character of a class. -/
  | one (kind : CharClass)
  /-- The empty text at the beginning. -/
  | atStart
  /-- The empty text at the end. -/
  | atEnd
  | cat (first second : Regex)
  | alt (left right : Regex)
  /-- So many times in a row, at least and at most. -/
  | repeated (body : Regex) (least : Nat) (most : Option Nat)
  deriving DecidableEq, Repr

namespace Regex

/-- One expression behind another. -/
def andThen : Regex → Regex → Regex
  | .empty, b => b
  | a, .empty => a
  | a, b => .cat a b

/-- Whether the empty text matches, at the beginning of the whole text if `start` says so, and at
its end if `stop` does. -/
def nullable (start stop : Bool) : Regex → Bool
  | .empty => true
  | .one _ => false
  | .atStart => start
  | .atEnd => stop
  | .cat a b => nullable start stop a && nullable start stop b
  | .alt a b => nullable start stop a || nullable start stop b
  | .repeated a least _ => least == 0 || nullable start stop a

/-- What can be left to match behind a character. A repetition whose body matches the empty text
here has had all the rounds that it has to have. -/
def partials (start : Bool) (c : Char) : Regex → List Regex
  | .empty => []
  | .one kind => if kind.has c then [.empty] else []
  | .atStart => []
  | .atEnd => []
  | .cat a b =>
    (partials start c a).map (·.andThen b) ++
      if nullable start false a then partials start c b else []
  | .alt a b => partials start c a ++ partials start c b
  | .repeated a least most =>
    if most = some 0 then []
    else
      let rest := .repeated a (if nullable start false a then 0 else least - 1) (most.map (· - 1))
      (partials start c a).map (·.andThen rest)

/-- Whether a match that goes on with one of the states, or begins later, ends in the text. -/
def foundFrom (r : Regex) (states : List Regex) (start : Bool) : List Char → Bool
  | [] => states.any (nullable start true)
  | c :: rest =>
    states.any (nullable start false) ||
      foundFrom r (r :: states.flatMap (partials start c)).eraseDups false rest

/-- Whether some part of a text matches. -/
def found (r : Regex) (text : String) : Bool := foundFrom r [r] true text.toList

end Regex

/-! ### Reading -/

namespace Regex

/-- The least parts of an expression. -/
inductive Token where
  | member (kind : CharClass)
  | start
  | stop
  | opening
  | closing
  | bar
  | repetition (least : Nat) (most : Option Nat)
  deriving DecidableEq, Repr

/-! ### Classes -/

/-- The digits. -/
def digits : List (Char × Char) := [('0', '9')]

/-- The letters, digits and the underscore. -/
def wordChars : List (Char × Char) := [('A', 'Z'), ('a', 'z'), ('0', '9'), ('_', '_')]

/-- The blanks. -/
def blanks : List (Char × Char) :=
  [(' ', ' '), ('\t', '\r'), ('\u00a0', '\u00a0'), ('\ufeff', '\ufeff'), ('\u2003', '\u2003'),
    ('\u2029', '\u2029')]

/-- The ranges that a letter behind a backslash names. -/
def namedRanges? (letter : Char) : Option (List (Char × Char)) :=
  if letter = 'd' ∨ letter = 'D' then some digits
  else if letter = 'w' ∨ letter = 'W' then some wordChars
  else if letter = 's' ∨ letter = 'S' then some blanks
  else none

/-- The members that a letter behind a backslash names; a capital letter means all others. -/
def namedMembers? (letter : Char) : Option (List ClassMember) :=
  (namedRanges? letter).map fun ranges =>
    if letter.isUpper then [.outside ranges] else ranges.map fun (first, last) => .range first last

/-- Whether a character can be escaped to stand for itself. -/
def isMark (c : Char) : Bool := '!' ≤ c && c ≤ '~' && !c.isAlphanum

/-- The character that one behind a backslash stands for. -/
def escaped? (c : Char) : Option Char :=
  if c = 'n' then some '\n'
  else if c = 'r' then some '\r'
  else if c = 't' then some '\t'
  else if c = 'f' then some '\x0c'
  else if c = 'v' then some '\x0b'
  else if isMark c then some c
  else none

/-- What a class in brackets is made of. -/
inductive ClassPart where
  | char (c : Char)
  | dash
  | named (members : List ClassMember)

/-- Reads the parts of a class up to its closing bracket; the result has what is left behind it. -/
def classParts? : List Char → Option (List ClassPart × List Char)
  | [] => none
  | ']' :: rest => some ([], rest)
  | '[' :: _ => none
  | '\\' :: c :: rest => do
    let part ← match namedMembers? c with
      | some members => some (ClassPart.named members)
      | none => (escaped? c).map ClassPart.char
    let (parts, left) ← classParts? rest
    return (part :: parts, left)
  | c :: rest => do
    let (parts, left) ← classParts? rest
    return ((if c = '-' then .dash else .char c) :: parts, left)

/-- The members that the parts of a class make. A dash between two characters makes a range, and
stands for itself elsewhere. -/
def classMembers? : List ClassPart → Option (List ClassMember)
  | [] => some []
  | .char first :: .dash :: .char last :: rest =>
    if first ≤ last then (classMembers? rest).map (.range first last :: ·) else none
  | .char c :: rest => (classMembers? rest).map (.range c c :: ·)
  | .dash :: rest => (classMembers? rest).map (.range '-' '-' :: ·)
  | .named members :: rest => (classMembers? rest).map (members ++ ·)

/-- Reads the inside of a class. A bracket that stands first does not close it. -/
def classBody? (negated : Bool) (cs : List Char) : Option (CharClass × List Char) := do
  let (parts, left) ← match cs with
    | ']' :: rest => (classParts? rest).map fun (parts, left) => (.char ']' :: parts, left)
    | cs => classParts? cs
  let members ← classMembers? parts
  return (⟨members, negated⟩, left)

/-- Reads a class behind its opening bracket. -/
def charClass? (cs : List Char) : Option (CharClass × List Char) :=
  match cs with
  | '^' :: rest => classBody? true rest
  | cs => classBody? false cs

/-! ### Tokens -/

/-- The number that leading digits write, if there are any, and what is left behind them. -/
def number? (cs : List Char) : Option (Nat × List Char) :=
  let read := cs.takeWhile Char.isDigit
  if read.isEmpty then none
  else some (read.foldl (fun n c => n * 10 + (c.toNat - '0'.toNat)) 0, cs.drop read.length)

/-- The bounds of a repetition behind an opening brace, and what is left behind the closing one. -/
def bounds? (cs : List Char) : Option (Nat × Option Nat × List Char) :=
  match number? cs with
  | some (n, '\x7d' :: rest) => some (n, some n, rest)
  | some (n, ',' :: '\x7d' :: rest) => some (n, none, rest)
  | some (n, ',' :: rest) =>
    match number? rest with
    | some (m, '\x7d' :: rest) => some (n, some m, rest)
    | _ => none
  | _ => none

/-- What is left behind a mark that tells which of several matches to prefer, if there is one. -/
def afterPreference : List Char → List Char
  | '?' :: rest => rest
  | '+' :: rest => rest
  | rest => rest

/-- A repetition, unless its bounds are in the wrong order. -/
def repetition? (least : Nat) (most : Option Nat) (rest : List Char) :
    Option (Token × List Char) :=
  if most.all (least ≤ ·) then some (.repetition least most, afterPreference rest) else none

/-- The class of all characters but the end of a line. -/
def anyChar : CharClass := ⟨[.range '\n' '\n'], true⟩

/-- The first token of an expression, and what is left behind it. A brace that begins no bounds
stands for itself. -/
def token? : List Char → Option (Token × List Char)
  | [] => none
  | '^' :: rest => some (.start, rest)
  | '$' :: rest => some (.stop, rest)
  | '(' :: '?' :: ':' :: rest => some (.opening, rest)
  | '(' :: '?' :: _ => none
  | '(' :: rest => some (.opening, rest)
  | ')' :: rest => some (.closing, rest)
  | '|' :: rest => some (.bar, rest)
  | '*' :: rest => repetition? 0 none rest
  | '+' :: rest => repetition? 1 none rest
  | '?' :: rest => repetition? 0 (some 1) rest
  | '.' :: rest => some (.member anyChar, rest)
  | '[' :: rest => (charClass? rest).map fun (kind, left) => (.member kind, left)
  | '\x7b' :: rest =>
    match bounds? rest with
    | some (least, most, left) => repetition? least most left
    | none => some (.member (.single '\x7b'), rest)
  | '\\' :: c :: rest =>
    match namedMembers? c with
    | some members => some (.member ⟨members, false⟩, rest)
    | none => (escaped? c).map fun c => (.member (.single c), rest)
  | ['\\'] => none
  | c :: rest => some (.member (.single c), rest)

/-- The tokens of an expression of at most so many characters. -/
def tokens? : Nat → List Char → Option (List Token)
  | _, [] => some []
  | 0, _ => none
  | fuel + 1, cs => do
    let (token, rest) ← token? cs
    let tokens ← tokens? fuel rest
    return token :: tokens

/-! ### Expressions -/

/-- An expression that is being read, inside of parentheses or not. -/
structure Frame where
  /-- The alternatives before the one that is being read. -/
  branches : Option Regex := none
  /-- What was read of it, without the last piece. -/
  before : Regex := .empty
  /-- The last piece, if a repetition can follow it. -/
  last : Option Regex := none

namespace Frame

/-- The alternative that is being read. -/
def branch (f : Frame) : Regex := f.before.andThen (f.last.getD .empty)

/-- All alternatives. -/
def whole (f : Frame) : Regex :=
  match f.branches with
  | some left => .alt left f.branch
  | none => f.branch

/-- Adds a piece that can be repeated. -/
def push (f : Frame) (r : Regex) : Frame := { f with before := f.branch, last := some r }

/-- Adds a piece that cannot be repeated. -/
def pushFixed (f : Frame) (r : Regex) : Frame :=
  { f with before := f.branch.andThen r, last := none }

/-- Begins the next alternative. -/
def next (f : Frame) : Frame := { branches := some f.whole }

end Frame

/-- Puts tokens together. The frames are those of the parentheses around, the inmost one first. -/
def ofTokens? (around : List Frame) (f : Frame) : List Token → Option Regex
  | [] => if around.isEmpty then some f.whole else none
  | .member kind :: rest => ofTokens? around (f.push (.one kind)) rest
  | .start :: rest => ofTokens? around (f.pushFixed .atStart) rest
  | .stop :: rest => ofTokens? around (f.pushFixed .atEnd) rest
  | .opening :: rest => ofTokens? (f :: around) {} rest
  | .closing :: rest =>
    match around with
    | outer :: around => ofTokens? around (outer.push f.whole) rest
    | [] => none
  | .bar :: rest => ofTokens? around f.next rest
  | .repetition least most :: rest =>
    match f.last with
    | some r => ofTokens? around ({ f with last := none }.pushFixed (.repeated r least most)) rest
    | none => none

/-- The expression that a text writes. -/
def ofText? (text : String) : Option Regex := do
  let cs := text.toList
  let tokens ← tokens? cs.length cs
  ofTokens? [] {} tokens

end Regex

end Crosswalk
