/-!
# Encodings

A text as it may stand in a URI is percent-encoded: letters, digits and four marks stand for
themselves, any other character is written as the bytes of its UTF-8 form, each in two hexadecimal
digits behind a percent sign. `Percent.decode?` undoes it; it also takes digits of either case, and a
plus sign in place of a leading zero.

In Base64 four characters stand for three bytes, each for six of their bits. At the end two or three
characters, filled up with `=`, stand for one or two bytes, and the bits that these do not need
are zero, so that every sequence of bytes has one text.
-/

namespace Crosswalk

/-! ### Percent-encoding -/

namespace Percent

/-- The characters that always stand for themselves. -/
def isUnreserved (c : Char) : Bool :=
  ('0' ≤ c && c ≤ '9') || ('A' ≤ c && c ≤ 'Z') || ('a' ≤ c && c ≤ 'z') ||
    c == '-' || c == '.' || c == '_' || c == '~'

/-- A hexadecimal digit in upper case. -/
def hexChar (n : Nat) : Char :=
  if n < 10 then Char.ofNat ('0'.toNat + n) else Char.ofNat ('A'.toNat + (n - 10))

/-- A byte behind a percent sign. -/
def escapeByte (b : UInt8) : List Char := ['%', hexChar (b.toNat / 16), hexChar (b.toNat % 16)]

/-- A character, where `keeps` says which ones stand for themselves besides the unreserved. -/
def encodeChar (keeps : Char → Bool) (c : Char) : List Char :=
  if isUnreserved c || keeps c then [c] else (String.utf8EncodeChar c).flatMap escapeByte

/-- A text, where `keeps` says which characters stand for themselves besides the unreserved. -/
def encode (keeps : Char → Bool) (text : String) : String :=
  String.ofList (text.toList.flatMap (encodeChar keeps))

/-- The text of a path: slashes stand for themselves. -/
def encodePath (text : String) : String := encode (· == '/') text

/-- The text of a segment of a path: slashes are encoded. -/
def encodeSegment (text : String) : String := encode (fun _ => false) text

/-- The value of a hexadecimal digit of either case. -/
def hexDigit? (c : Char) : Option Nat :=
  if '0' ≤ c ∧ c ≤ '9' then some (c.toNat - '0'.toNat)
  else if 'A' ≤ c ∧ c ≤ 'F' then some (c.toNat - 'A'.toNat + 10)
  else if 'a' ≤ c ∧ c ≤ 'f' then some (c.toNat - 'a'.toNat + 10)
  else none

/-- The byte of two characters behind a percent sign. -/
def byte? (a b : Char) : Option UInt8 := do
  let high ← if a = '+' then some 0 else hexDigit? a
  let low ← hexDigit? b
  return UInt8.ofNat (high * 16 + low)

/-- The bytes of an encoded text, unless an escape is malformed. -/
def bytes? : List Char → Option (List UInt8)
  | [] => some []
  | c :: rest =>
    if c = '%' then
      match rest with
      | a :: b :: rest =>
        match byte? a b, bytes? rest with
        | some byte, some bytes => some (byte :: bytes)
        | _, _ => none
      | _ => none
    else (bytes? rest).map (String.utf8EncodeChar c ++ ·)

/-- The text that was encoded, unless an escape is malformed or the bytes are not UTF-8. -/
def decode? (text : String) : Option String :=
  (bytes? text.toList).bind fun bytes => String.fromUTF8? bytes.toByteArray

end Percent

/-! ### Base64 -/

namespace Base64

/-- The bits that a character stands for. -/
def bits? (c : Char) : Option Nat :=
  if 'A' ≤ c ∧ c ≤ 'Z' then some (c.toNat - 'A'.toNat)
  else if 'a' ≤ c ∧ c ≤ 'z' then some (c.toNat - 'a'.toNat + 26)
  else if '0' ≤ c ∧ c ≤ '9' then some (c.toNat - '0'.toNat + 52)
  else if c = '+' then some 62
  else if c = '/' then some 63
  else none

/-- Whether a character stands for bits the lowest of which are zero. -/
def endsWithZeros (c : Char) (power : Nat) : Bool := (bits? c).any fun n => n % power == 0

/-- Whether characters are the text of some bytes. -/
def isEncodedFrom : List Char → Bool
  | [] => true
  | [a, b, '=', '='] => (bits? a).isSome && endsWithZeros b 16
  | [a, b, c, '='] => (bits? a).isSome && (bits? b).isSome && endsWithZeros c 4
  | a :: b :: c :: d :: rest =>
    (bits? a).isSome && (bits? b).isSome && (bits? c).isSome && (bits? d).isSome &&
      isEncodedFrom rest
  | _ => false

/-- Whether a text is that of some bytes. -/
def isEncoded (text : String) : Bool := isEncodedFrom text.toList

end Base64

end Crosswalk
