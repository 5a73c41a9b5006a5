import Crosswalk.Text.Basic

/-!
# Patterns

A pattern of XML Schema matches a whole value, and in it `^` and `$` stand for themselves.
`Pattern.translate` writes it as an expression for searching: the two anchors are escaped, and
the escapes for name characters, which other dialects lack, are spelled out as classes. What has
no counterpart is refused with its `Refusal`.
-/

namespace Crosswalk

namespace Pattern

/-- Why a pattern has no counterpart. -/
inductive Refusal where
  | trailingBackslash
  /-- A negated name escape inside a class. -/
  | negatedInClass (escape : Char)
  /-- A Unicode block, which begins with `Is`. -/
  | block (escape : Char) (name : List Char)
  /-- A class within a class. -/
  | subtraction
  deriving DecidableEq, Repr

/-- The text of a refusal. -/
def Refusal.text : Refusal → String
  | .trailingBackslash => "trailing backslash"
  | .negatedInClass escape => String.ofList ('\\' :: [escape]) ++ " inside a character class"
  | .block escape name =>
    "Unicode block escape " ++ String.ofList ('\\' :: escape :: name)
  | .subtraction => "character class subtraction"

/-- The characters that may begin a name, as members of a class. -/
def nameStart : List Char := ['_', ':', 'A', '-', 'Z', 'a', '-', 'z']

/-- The characters of a name, as members of a class. -/
def nameChar : List Char :=
  ['\\', '-', '.', '_', ':', 'A', '-', 'Z', 'a', '-', 'z', '0', '-', '9']

/-- Where the walk over a pattern stands between two characters. -/
inductive Place where
  | outside
  | inClass
  /-- Behind a backslash. -/
  | escape (inClass : Bool)
  /-- Behind the letter of a property escape, with what was read of the name in braces, last
  character first. -/
  | property (inClass : Bool) (letter : Char) (read : List Char)
  deriving DecidableEq

/-- The place with or without a class around it. -/
def Place.of (inClass : Bool) : Place := if inClass then .inClass else .outside

/-- A step of the walk: what it writes and where it leads. -/
abbrev Step := Except Refusal (List Char × Place)

/-- A character that is part of no escape. -/
def plain (inClass : Bool) (c : Char) : Step :=
  if c = '\\' then .ok ([], .escape inClass)
  else if inClass then
    if c = '[' then .error .subtraction
    else if c = ']' then .ok ([c], .outside)
    else .ok ([c], .inClass)
  else
    if c = '[' then .ok ([c], .inClass)
    else if c = '^' ∨ c = '$' then .ok (['\\', c], .outside)
    else .ok ([c], .outside)

/-- The class of a name escape: its members alone within a class, else in brackets of its own,
and negated for a capital letter. -/
def nameClass (inClass negated : Bool) (letter : Char) (members : List Char) : Step :=
  if inClass then
    if negated then .error (.negatedInClass letter) else .ok (members, .inClass)
  else if negated then .ok ('[' :: '^' :: (members ++ [']']), .outside)
  else .ok ('[' :: (members ++ [']']), .outside)

/-- The letter behind a backslash. -/
def escaped (inClass : Bool) (c : Char) : Step :=
  if c = 'i' ∨ c = 'I' then nameClass inClass (c = 'I') c nameStart
  else if c = 'c' ∨ c = 'C' then nameClass inClass (c = 'C') c nameChar
  else if c = 'p' ∨ c = 'P' then .ok ([], .property inClass c [])
  else .ok (['\\', c], .of inClass)

/-- The text of a property escape with its name, unless the name is that of a block. -/
def propertyText (letter : Char) (name : List Char) : Except Refusal (List Char) :=
  if ['\x7b', 'I', 's'].isPrefixOf name then .error (.block letter name)
  else .ok ('\\' :: letter :: name)

/-- A character behind the letter of a property escape. Without an opening brace the escape has
no name and ends at once. -/
def property (inClass : Bool) (letter : Char) (read : List Char) (c : Char) : Step :=
  if read.isEmpty ∧ c ≠ '\x7b' then
    (plain inClass c).map fun (written, place) => ('\\' :: letter :: written, place)
  else if read.isEmpty ∨ c ≠ '\x7d' then .ok ([], .property inClass letter (c :: read))
  else (propertyText letter (c :: read).reverse).map fun written => (written, .of inClass)

/-- The step at a character. -/
def step : Place → Char → Step
  | .outside, c => plain false c
  | .inClass, c => plain true c
  | .escape inClass, c => escaped inClass c
  | .property inClass letter read, c => property inClass letter read c

/-- What is written at the end of the pattern. -/
def finish : Place → Except Refusal (List Char)
  | .outside => .ok []
  | .inClass => .ok []
  | .escape _ => .error .trailingBackslash
  | .property _ letter read => propertyText letter read.reverse

/-- Translates what is left of a pattern. -/
def translateFrom (place : Place) : List Char → Except Refusal (List Char)
  | [] => finish place
  | c :: rest => do
    let (written, next) ← step place c
    let more ← translateFrom next rest
    return written ++ more

@[simp] theorem translateFrom_nil (place : Place) : translateFrom place [] = finish place := rfl

theorem translateFrom_cons (place : Place) (c : Char) (rest : List Char) :
    translateFrom place (c :: rest) = (do
      let (written, next) ← step place c
      let more ← translateFrom next rest
      return written ++ more) := rfl

/-- A pattern as an expression without anchors. -/
def translate (pattern : String) : Except Refusal String :=
  match translateFrom .outside pattern.toList with
  | .ok cs => .ok (String.ofList cs)
  | .error e => .error e

/-- The anchored expression of alternatives. -/
def anchored (alternatives : List String) : String :=
  "^(?:" ++ Text.join "|" alternatives ++ ")$"

end Pattern

end Crosswalk
