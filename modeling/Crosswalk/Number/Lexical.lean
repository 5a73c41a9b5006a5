import Crosswalk.Json.Basic
import Crosswalk.Text.Basic

/-!
# Numerals

The numbers that a schema writes: in facets, in literals and in occurrence bounds. A `Numeral` is
the exact decimal a text denotes. `Number.ofLexical?` gives it a place among the JSON numbers: an
integer if it is written without point and exponent and fits 64 bits, and the nearest
floating-point number otherwise, of which there is none beyond the largest.
-/

namespace Crosswalk

/-- The exact number `± digits * 10 ^ exponent`. -/
structure Numeral where
  negative : Bool
  digits : Nat
  exponent : Int
  deriving DecidableEq, Repr

namespace Numeral

/-- The value of a decimal digit. -/
def digit? (c : Char) : Option Nat :=
  if '0' ≤ c ∧ c ≤ '9' then some (c.toNat - '0'.toNat) else none

def isDigit (c : Char) : Bool := (digit? c).isSome

/-- The number that digits write. -/
def natOf (digits : List Char) : Nat := digits.foldl (fun n c => n * 10 + (digit? c).getD 0) 0

/-- Sign and rest: a leading plus or minus is the sign. -/
def signOf : List Char → Bool × List Char
  | '-' :: rest => (true, rest)
  | '+' :: rest => (false, rest)
  | cs => (false, cs)

/-- A number of one or more digits and nothing else. -/
def nat? (cs : List Char) : Option Nat :=
  if cs.isEmpty || !cs.all isDigit then none else some (natOf cs)

/-- Digits behind an optional sign. -/
def int? (cs : List Char) : Option Int :=
  let (negative, digits) := signOf cs
  (nat? digits).map fun (n : Nat) => if negative then -(n : Int) else (n : Int)

/-- The exponent of a numeral: none, or a mark and digits behind an optional sign. -/
def exponent? : List Char → Option Int
  | [] => some 0
  | c :: rest => if c = 'e' ∨ c = 'E' then int? rest else none

/-- Digits with at most one point, at least one digit, and an optional exponent, behind an
optional sign. -/
def ofChars? (cs : List Char) : Option Numeral :=
  let (negative, body) := signOf cs
  let whole := body.takeWhile isDigit
  let rest := body.dropWhile isDigit
  let (fraction, rest) := match rest with
    | '.' :: more => (more.takeWhile isDigit, more.dropWhile isDigit)
    | _ => ([], rest)
  if whole.isEmpty && fraction.isEmpty then none
  else (exponent? rest).map fun exponent =>
    ⟨negative, natOf (whole ++ fraction), exponent - fraction.length⟩

/-- The numeral that a text denotes; blanks around it do not count. -/
def ofText? (text : String) : Option Numeral := ofChars? (Text.trimChars text.toList)

/-- The nearest floating-point number. -/
def toDouble? (n : Numeral) : Option Double := Double.ofDecimal? n.negative n.digits n.exponent

end Numeral

namespace Number

/-- An integer that fits 64 bits, signed or unsigned. -/
def fits (n : Int) : Bool := -(Nat.pow 2 63 : Nat) ≤ n && n < (Nat.pow 2 64 : Nat)

/-- The JSON number that characters denote. A minus sign is one of the signed range only, so that
an integer below it is read as a floating-point number. -/
def ofLexicalChars? (cs : List Char) : Option Number :=
  match (Numeral.int? cs).filter fits with
  | some n => some (.int n)
  | none => ((Numeral.ofChars? cs).bind Numeral.toDouble?).map .float

/-- The JSON number that a text denotes; blanks around it do not count. -/
def ofLexical? (text : String) : Option Number := ofLexicalChars? (Text.trimChars text.toList)

end Number

/-- A whole number below `2 ^ 64` that a text denotes; blanks around it do not count, and a plus
sign may stand before it. -/
def Numeral.word? (text : String) : Option Nat :=
  let cs := Text.trimChars text.toList
  let digits := match cs with
    | '+' :: rest => rest
    | _ => cs
  (nat? digits).filter (· < Nat.pow 2 64)

end Crosswalk
