import Crosswalk.Json.Basic
import Crosswalk.Text.Basic
import Crosswalk.Text.Encoding

/-!
# Pointers and links

A pointer names a value inside another one: each of its segments, led by a slash, is the name of a
member or the position of an item. In a segment `~1` stands for a slash and `~0` for a tilde. The
empty pointer names the whole value. As the fragment of a URI a pointer is percent-encoded.

A link leads to a member of a section of a document: the name of the document as a path, empty for
the document that holds the link, and behind `#` the pointer to the member. Whatever characters the
names have, the link has ASCII characters only.
-/

namespace Crosswalk

/-! ### Pointers into JSON values -/

namespace Pointer

/-- A segment with its tildes and slashes escaped. -/
def escapeChars (cs : List Char) : List Char :=
  cs.flatMap fun c => if c = '~' then ['~', '0'] else if c = '/' then ['~', '1'] else [c]

/-- The segment that was escaped; a tilde that is no escape stands for itself. -/
def unescapeChars : List Char → List Char
  | [] => []
  | '~' :: '0' :: rest => '~' :: unescapeChars rest
  | '~' :: '1' :: rest => '/' :: unescapeChars rest
  | c :: rest => c :: unescapeChars rest

/-- A segment with its tildes and slashes escaped. -/
def escape (segment : String) : String := String.ofList (escapeChars segment.toList)

/-- A segment as it stands in the fragment of a URI. -/
def encode (segment : String) : String := Percent.encodeSegment (escape segment)

/-- The segments of a pointer. One that is not empty begins with a slash. -/
def segments? (pointer : String) : Option (List String) :=
  match pointer.toList with
  | [] => some []
  | '/' :: rest => some ((Text.pieces '/' rest).map fun s => String.ofList (unescapeChars s))
  | _ => none

/-- The position that a segment writes: digits without a leading zero. -/
def position? (segment : String) : Option Nat :=
  match segment.toList with
  | [] => none
  | ['0'] => some 0
  | '0' :: _ => none
  | cs =>
    if cs.all fun c => '0' ≤ c && c ≤ '9' then
      some (cs.foldl (fun n c => n * 10 + (c.toNat - '0'.toNat)) 0)
    else none

/-- The value that one segment names. -/
def step? (value : Json) (segment : String) : Option Json :=
  match value with
  | .object fields => Table.find? fields segment
  | .array items => (position? segment).bind fun i => items[i]?
  | _ => none

/-- The value that segments name in turn. -/
def follow? : Json → List String → Option Json
  | value, [] => some value
  | value, segment :: rest => (step? value segment).bind fun inner => follow? inner rest

@[simp] theorem follow?_nil (value : Json) : follow? value [] = some value := rfl

theorem follow?_cons (value : Json) (segment : String) (rest : List String) :
    follow? value (segment :: rest) = (step? value segment).bind fun v => follow? v rest := rfl

end Pointer

/-- The value inside this one that a pointer names. -/
def Json.pointed? (value : Json) (pointer : String) : Option Json :=
  (Pointer.segments? pointer).bind (Pointer.follow? value)

/-! ### Links between documents -/

namespace Link

/-- The link to a member of a section, in another document or in the same one. -/
def text (document : Option String) (sectionName name : String) : String :=
  (document.map Percent.encodePath).getD "" ++ "#/" ++ Pointer.encode sectionName ++ "/" ++
    Pointer.encode name

/-- The schema that refers to what a link leads to. -/
def schema (link : String) : Json := .object [("$ref", .string link)]

/-- The two parts of a link, before and behind its first `#`. -/
def split? (link : String) : Option (String × String) :=
  match link.toList.dropWhile (· != '#') with
  | _ :: rest => some (String.ofList (link.toList.takeWhile (· != '#')), String.ofList rest)
  | [] => none

end Link

end Crosswalk
