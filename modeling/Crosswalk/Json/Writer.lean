import Crosswalk.Json.Basic
import Crosswalk.Number.Double

/-!
# Writing JSON text

Three forms of one value. The compact form has no blanks and is what messages quote. The pretty
form has one member a line. The canonical form identifies a document: it is compact, numbers are
in the canonical layout, and the members of an object are in the order of their names as
written, with quotes and escapes. That order differs from the order of the names where one name
extends another with a blank or an exclamation mark, which come before the closing quote.
-/

namespace Crosswalk

namespace Json

/-- A hexadecimal digit in lower case. -/
def hexChar (n : Nat) : Char :=
  if n < 10 then Char.ofNat ('0'.toNat + n) else Char.ofNat ('a'.toNat + (n - 10))

/-- A character inside a string. Only the quote, the backslash and control characters are
escaped. -/
def escapeChar (c : Char) : List Char :=
  if c = '"' then ['\\', '"']
  else if c = '\\' then ['\\', '\\']
  else if c = '\x08' then ['\\', 'b']
  else if c = '\x0c' then ['\\', 'f']
  else if c = '\n' then ['\\', 'n']
  else if c = '\r' then ['\\', 'r']
  else if c = '\t' then ['\\', 't']
  else if c < ' ' then ['\\', 'u', '0', '0', hexChar (c.toNat / 16), hexChar (c.toNat % 16)]
  else [c]

/-- A string with its quotes. -/
def quote (s : String) : List Char := '"' :: (s.toList.flatMap escapeChar ++ ['"'])

/-- An integer in decimal digits. -/
def intChars (n : Int) : List Char :=
  match n with
  | .ofNat n => Nat.toDigits 10 n
  | .negSucc n => '-' :: Nat.toDigits 10 (n + 1)

/-- A number; the layout is for floats. -/
def numberChars (layout : Layout) : Number → List Char
  | .int n => intChars n
  | .float x => layout.write x

/-- Texts with a separator between them. -/
def separated (separator : List Char) : List (List Char) → List Char
  | [] => []
  | [x] => x
  | x :: y :: rest => x ++ separator ++ separated separator (y :: rest)

/-- The compact form. -/
def compactChars : Json → List Char
  | .null => ['n', 'u', 'l', 'l']
  | .bool true => ['t', 'r', 'u', 'e']
  | .bool false => ['f', 'a', 'l', 's', 'e']
  | .number n => numberChars .display n
  | .string s => quote s
  | .array xs => '[' :: (separated [','] (items xs) ++ [']'])
  | .object fs => '\x7b' :: (separated [','] (members fs) ++ ['\x7d'])
where
  items : List Json → List (List Char)
    | [] => []
    | x :: rest => compactChars x :: items rest
  members : List (String × Json) → List (List Char)
    | [] => []
    | (k, x) :: rest => (quote k ++ ':' :: compactChars x) :: members rest

/-- A line break and the blanks of a depth of nesting. -/
def newLine (depth : Nat) : List Char := '\n' :: List.replicate (2 * depth) ' '

/-- The pretty form at a depth of nesting: two blanks a level, empty containers on one line. -/
def prettyChars (depth : Nat) : Json → List Char
  | .array [] => ['[', ']']
  | .object [] => ['\x7b', '\x7d']
  | .array xs =>
    '[' :: (newLine (depth + 1) ++ separated (',' :: newLine (depth + 1)) (items (depth + 1) xs) ++
      newLine depth ++ [']'])
  | .object fs =>
    '\x7b' :: (newLine (depth + 1) ++
      separated (',' :: newLine (depth + 1)) (members (depth + 1) fs) ++
      newLine depth ++ ['\x7d'])
  | .null => compactChars .null
  | .bool b => compactChars (.bool b)
  | .number n => compactChars (.number n)
  | .string s => compactChars (.string s)
where
  items (depth : Nat) : List Json → List (List Char)
    | [] => []
    | x :: rest => prettyChars depth x :: items depth rest
  members (depth : Nat) : List (String × Json) → List (List Char)
    | [] => []
    | (k, x) :: rest => (quote k ++ ':' :: ' ' :: prettyChars depth x) :: members depth rest

/-- The canonical form. -/
def canonicalChars : Json → List Char
  | .null => compactChars .null
  | .bool b => compactChars (.bool b)
  | .number n => numberChars .canonical n
  | .string s => quote s
  | .array xs => '[' :: (separated [','] (items xs) ++ [']'])
  | .object fs =>
    '\x7b' :: (separated [','] ((Table.ofList (members fs)).map fun (k, v) => k ++ ':' :: v) ++
      ['\x7d'])
where
  items : List Json → List (List Char)
    | [] => []
    | x :: rest => canonicalChars x :: items rest
  members : List (String × Json) → List (List Char × List Char)
    | [] => []
    | (k, x) :: rest => (quote k, canonicalChars x) :: members rest

/-- The compact form as a string. -/
def compact (v : Json) : String := String.ofList v.compactChars

/-- The pretty form as a string, without a final line break. -/
def pretty (v : Json) : String := String.ofList (v.prettyChars 0)

/-- The canonical form as a string. -/
def canonical (v : Json) : String := String.ofList v.canonicalChars

end Json

end Crosswalk
