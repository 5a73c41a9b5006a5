import Crosswalk.Json.Basic

/-!
# Reading JSON text

`Json.ofText?` reads one JSON value that fills a text. A text that is not JSON, nests deeper than
`Json.deepestNesting` containers, or holds a number beyond the floating-point range has no value.

A number without fraction and exponent is an integer if it fits 64 bits, signed or unsigned. Any
other number is a float, computed in two roundings: the leading digits that fit 64 bits are
rounded first, and the result is then scaled by one power of ten. Negative zero is a float, for
integers have no sign of zero.
-/

namespace Crosswalk

namespace Json

/-- Containers may be nested this deep. -/
def deepestNesting : Nat := 127

namespace Reader

/-- The blanks that JSON allows between tokens. -/
def isBlank (c : Char) : Bool := c == ' ' || c == '\n' || c == '\t' || c == '\r'

def skipBlanks (cs : List Char) : List Char := cs.dropWhile isBlank

/-- The value of a hexadecimal digit of either case. -/
def hexDigit? (c : Char) : Option Nat :=
  if '0' ≤ c ∧ c ≤ '9' then some (c.toNat - '0'.toNat)
  else if 'a' ≤ c ∧ c ≤ 'f' then some (c.toNat - 'a'.toNat + 10)
  else if 'A' ≤ c ∧ c ≤ 'F' then some (c.toNat - 'A'.toNat + 10)
  else none

/-- A code unit of four hexadecimal digits. -/
def codeUnit? (a b c d : Char) : Option Nat := do
  let a ← hexDigit? a
  let b ← hexDigit? b
  let c ← hexDigit? c
  let d ← hexDigit? d
  return ((a * 16 + b) * 16 + c) * 16 + d

/-- The character of an escape with one letter. -/
def shortEscape? (c : Char) : Option Char :=
  if c = '"' then some '"'
  else if c = '\\' then some '\\'
  else if c = '/' then some '/'
  else if c = 'b' then some '\x08'
  else if c = 'f' then some '\x0c'
  else if c = 'n' then some '\n'
  else if c = 'r' then some '\r'
  else if c = 't' then some '\t'
  else none

/-- Reads a string after its opening quote; `read` holds the characters so far, last first. A
surrogate stands only in a pair, and control characters only in escapes. -/
def stringBody (read : List Char) : List Char → Option (String × List Char)
  | [] => none
  | c :: rest =>
    if c = '"' then some (String.ofList read.reverse, rest)
    else if c = '\\' then
      match rest with
      | [] => none
      | e :: rest =>
        if e = 'u' then
          match rest with
          | a :: b :: c :: d :: rest =>
            match codeUnit? a b c d with
            | none => none
            | some high =>
              if 0xD800 ≤ high ∧ high < 0xDC00 then
                match rest with
                | s :: u :: a :: b :: c :: d :: rest =>
                  if s = '\\' ∧ u = 'u' then
                    match codeUnit? a b c d with
                    | none => none
                    | some low =>
                      if 0xDC00 ≤ low ∧ low < 0xE000 then
                        let code := 0x10000 + (high - 0xD800) * 0x400 + (low - 0xDC00)
                        stringBody (Char.ofNat code :: read) rest
                      else none
                  else none
                | _ => none
              else if 0xDC00 ≤ high ∧ high < 0xE000 then none
              else stringBody (Char.ofNat high :: read) rest
          | _ => none
        else
          match shortEscape? e with
          | none => none
          | some c => stringBody (c :: read) rest
    else if c < ' ' then none
    else stringBody (c :: read) rest

/-- The value of a decimal digit. -/
def digit? (c : Char) : Option Nat :=
  if '0' ≤ c ∧ c ≤ '9' then some (c.toNat - '0'.toNat) else none

/-- Appends digits to `value` as long as the result fits 64 bits: the new value, the number of
digits taken and what is left. -/
def takeDigits (value count : Nat) : List Char → Nat × Nat × List Char
  | [] => (value, count, [])
  | c :: rest =>
    match digit? c with
    | none => (value, count, c :: rest)
    | some d =>
      if value * 10 + d < Nat.pow 2 64 then takeDigits (value * 10 + d) (count + 1) rest
      else (value, count, c :: rest)

/-- Passes over digits and counts them. -/
def skipDigits (count : Nat) : List Char → Nat × List Char
  | [] => (count, [])
  | c :: rest => if (digit? c).isSome then skipDigits (count + 1) rest else (count, c :: rest)

def startsWithDigit : List Char → Bool
  | [] => false
  | c :: _ => (digit? c).isSome

/-- The rounded power of ten. -/
def powerOfTen? (n : Nat) : Option Double := Double.ofDecimal? false 1 n

/-- Scales by a power of ten. Powers beyond `308` are applied in steps, and three steps down
already reach zero. -/
def scale : Nat → Double → Int → Option Double
  | 0, x, _ => some x
  | steps + 1, x, exponent =>
    if exponent.natAbs ≤ 308 then do
      let power ← powerOfTen? exponent.natAbs
      if exponent ≥ 0 then x.mul? power else x.div? power
    else if x.isZero then some x
    else if exponent ≥ 0 then none
    else do
      let power ← powerOfTen? 308
      let smaller ← x.div? power
      scale steps smaller (exponent + 308)

/-- The float of a significand and a power of ten. -/
def floatOf? (negative : Bool) (significand : Nat) (exponent : Int) : Option Json := do
  let x ← Double.ofRatio? negative significand 1
  let y ← scale 5 x exponent
  return .number (.float y)

/-- The exponent after its mark: an optional sign and at least one digit. -/
def exponentPart? (cs : List Char) : Option (Int × List Char) :=
  let (negative, digits) := match cs with
    | '-' :: rest => (true, rest)
    | '+' :: rest => (false, rest)
    | _ => (false, cs)
  if startsWithDigit digits then
    let value := (digits.takeWhile fun c => (digit? c).isSome).foldl
      (fun n c => n * 10 + (digit? c).getD 0) 0
    some (if negative then -(value : Int) else value, (skipDigits 0 digits).2)
  else none

/-- Ends a float with its optional exponent. -/
def withExponent (negative : Bool) (significand : Nat) (exponent : Int) (cs : List Char) :
    Option (Json × List Char) :=
  match cs with
  | c :: rest =>
    if c = 'e' ∨ c = 'E' then do
      let (more, rest) ← exponentPart? rest
      let x ← floatOf? negative significand (exponent + more)
      return (x, rest)
    else do
      let x ← floatOf? negative significand exponent
      return (x, cs)
  | [] => do
    let x ← floatOf? negative significand exponent
    return (x, [])

/-- The number without fraction and exponent: an integer where it fits. -/
def wholeNumber? (negative : Bool) (significand : Nat) : Option Json :=
  if negative then
    if significand = 0 ∨ significand > Nat.pow 2 63 then floatOf? true significand 0
    else some (.int (-significand))
  else some (.nat significand)

/-- Reads a number after its sign. -/
def unsigned (negative : Bool) (cs : List Char) : Option (Json × List Char) :=
  let leadingZero : Bool := match cs with
    | '0' :: rest => startsWithDigit rest
    | _ => false
  if !startsWithDigit cs || leadingZero then none
  else
    let (significand, _, rest) := takeDigits 0 0 cs
    let (skipped, rest) := skipDigits 0 rest
    match rest with
    | '.' :: fraction =>
      if startsWithDigit fraction then
        let (significand, taken, rest) := takeDigits significand 0 fraction
        let (_, rest) := skipDigits 0 rest
        withExponent negative significand ((skipped : Int) - taken) rest
      else none
    | 'e' :: _ => withExponent negative significand skipped rest
    | 'E' :: _ => withExponent negative significand skipped rest
    | _ =>
      if skipped = 0 then (wholeNumber? negative significand).map (·, rest)
      else (floatOf? negative significand skipped).map (·, rest)

/-- What is left after a word. -/
def afterWord? : List Char → List Char → Option (List Char)
  | [], cs => some cs
  | w :: word, c :: cs => if w = c then afterWord? word cs else none
  | _ :: _, [] => none

/-- Reads a value that is no container. -/
def scalar (cs : List Char) : Option (Json × List Char) :=
  match cs with
  | '"' :: rest => (stringBody [] rest).map fun (s, rest) => (.string s, rest)
  | 'n' :: rest => (afterWord? ['u', 'l', 'l'] rest).map (.null, ·)
  | 't' :: rest => (afterWord? ['r', 'u', 'e'] rest).map (.bool true, ·)
  | 'f' :: rest => (afterWord? ['a', 'l', 's', 'e'] rest).map (.bool false, ·)
  | '-' :: rest => unsigned true rest
  | _ => unsigned false cs

/-- Reads the items of an array up to its closing bracket, the first of them next. The step count
bounds the items; each takes at least one character. -/
def items (value : List Char → Option (Json × List Char)) :
    Nat → List Json → List Char → Option (List Json × List Char)
  | 0, _, _ => none
  | steps + 1, read, cs =>
    match value (skipBlanks cs) with
    | none => none
    | some (item, rest) =>
      match skipBlanks rest with
      | ',' :: rest => items value steps (item :: read) rest
      | ']' :: rest => some ((item :: read).reverse, rest)
      | _ => none

/-- Reads the members of an object up to its closing brace, the first of them next. -/
def members (value : List Char → Option (Json × List Char)) :
    Nat → List (String × Json) → List Char → Option (List (String × Json) × List Char)
  | 0, _, _ => none
  | steps + 1, read, cs =>
    match skipBlanks cs with
    | '"' :: rest =>
      match stringBody [] rest with
      | none => none
      | some (name, rest) =>
        match skipBlanks rest with
        | ':' :: rest =>
          match value (skipBlanks rest) with
          | none => none
          | some (item, rest) =>
            match skipBlanks rest with
            | ',' :: rest => members value steps ((name, item) :: read) rest
            | '}' :: rest => some (((name, item) :: read).reverse, rest)
            | _ => none
        | _ => none
    | _ => none

/-- Reads a value that begins at the first character, with at most so many containers inside one
another. -/
def value : Nat → List Char → Option (Json × List Char)
  | 0, cs => scalar cs
  | depth + 1, cs =>
    match cs with
    | '[' :: rest =>
      match skipBlanks rest with
      | ']' :: rest => some (.array [], rest)
      | rest => (items (value depth) rest.length [] rest).map fun (xs, rest) => (.array xs, rest)
    | '{' :: rest =>
      match skipBlanks rest with
      | '}' :: rest => some (.object [], rest)
      | rest =>
        (members (value depth) rest.length [] rest).map fun (fs, rest) => (.ofFields fs, rest)
    | _ => scalar cs

end Reader

/-- Reads a text that holds one value, with at most so many containers inside one another. -/
def ofChars? (depth : Nat) (cs : List Char) : Option Json :=
  match Reader.value depth (Reader.skipBlanks cs) with
  | some (v, rest) => if (Reader.skipBlanks rest).isEmpty then some v else none
  | none => none

/-- Reads a text that holds one value. -/
def ofText? (text : String) : Option Json := ofChars? deepestNesting text.toList

end Json

end Crosswalk
