/-!
# The events of an XML document

`events?` reads the text of a document as a sequence of events: a start tag with its attributes,
an end tag, or a piece of character data. Comments, processing instructions and declarations
leave no event; references are resolved, and the entities that the document type declares are
expanded in place. A text that is not well-formed has no events. Whether tags match, and what
their prefixes stand for, is judged of the events. Before that it is told which characters may stand
in a document, and which ones make up a name.
-/

namespace Crosswalk

/-! ### Characters -/

namespace Xml

/-- Whether a code point lies in one of some inclusive ranges. -/
def inRanges (ranges : List (Nat × Nat)) (n : Nat) : Bool :=
  ranges.any fun (first, last) => first ≤ n && n ≤ last

/-- The blanks of markup. -/
def isSpace (c : Char) : Bool := c == ' ' || c == '\t' || c == '\n' || c == '\r'

/-- Whether a character may stand in a document: no control character but the blanks, and neither
of the two noncharacters at the end of the first plane. -/
def isAllowed (c : Char) : Bool :=
  if c < ' ' then isSpace c else c.toNat != 0xFFFE && c.toNat != 0xFFFF

/-- The letters beyond ASCII that may begin a name. -/
def nameStartRanges : List (Nat × Nat) :=
  [(0xC0, 0xD6), (0xD8, 0xF6), (0xF8, 0x2FF), (0x370, 0x37D), (0x37F, 0x1FFF), (0x200C, 0x200D),
    (0x2070, 0x218F), (0x2C00, 0x2FEF), (0x3001, 0xD7FF), (0xF900, 0xFDCF), (0xFDF0, 0xFFFD),
    (0x10000, 0xEFFFF)]

/-- The further characters beyond ASCII that may continue a name. -/
def nameExtraRanges : List (Nat × Nat) := [(0xB7, 0xB7), (0x300, 0x36F), (0x203F, 0x2040)]

/-- Whether a character may begin a name. -/
def isNameStart (c : Char) : Bool :=
  ('A' ≤ c && c ≤ 'Z') || ('a' ≤ c && c ≤ 'z') || c == ':' || c == '_' ||
    inRanges nameStartRanges c.toNat

/-- Whether a character may continue a name. -/
def isNameChar (c : Char) : Bool :=
  isNameStart c || ('0' ≤ c && c ≤ '9') || c == '-' || c == '.' ||
    inRanges nameExtraRanges c.toNat

theorem isNameChar_of_isNameStart {c : Char} (h : isNameStart c = true) : isNameChar c = true := by
  simp [isNameChar, h]

end Xml

/-! ### Events -/

namespace Xml

/-- A name as written, its prefix apart; the prefix is empty if there is none. -/
structure Tag where
  tagPrefix : String
  name : String
  deriving DecidableEq, Repr

/-- A part of a document. -/
inductive Event where
  | start (tag : Tag) (attributes : List (Tag × String))
  | stop (tag : Tag)
  | text (data : String)
  deriving Repr

/-- The entities a document declares, with their texts. The first declaration of a name counts. -/
abbrev Entities := List (List Char × List Char)

/-! ### Tokens -/

/-- What follows a token, if the text begins with it. -/
def after? : List Char → List Char → Option (List Char)
  | [], cs => some cs
  | _ :: _, [] => none
  | t :: token, c :: cs => if t = c then after? token cs else none

/-- What follows a token given as a string. -/
def afterToken? (token : String) (cs : List Char) : Option (List Char) := after? token.toList cs

def startsWith (token : String) (cs : List Char) : Bool := token.toList.isPrefixOf cs

def skipSpaces (cs : List Char) : List Char := cs.dropWhile isSpace

/-- What follows at least one blank. -/
def afterSpaces? (cs : List Char) : Option (List Char) :=
  match cs with
  | c :: rest => if isSpace c then some (skipSpaces rest) else none
  | [] => none

/-- The characters before the first occurrence of a token, and what follows it. -/
def splitAt? (token : List Char) : List Char → Option (List Char × List Char)
  | [] => if token.isEmpty then some ([], []) else none
  | c :: rest =>
    match after? token (c :: rest) with
    | some behind => some ([], behind)
    | none => (splitAt? token rest).map fun (inside, behind) => (c :: inside, behind)

/-- Whether a token occurs. -/
def occurs (token : String) (cs : List Char) : Bool := (splitAt? token.toList cs).isSome

/-- A name and what follows it. -/
def name? (cs : List Char) : Option (List Char × List Char) :=
  match cs with
  | c :: rest =>
    if isNameStart c then
      some (c :: rest.takeWhile isNameChar, rest.dropWhile isNameChar)
    else none
  | [] => none

/-- The tag that the characters of a name write: at most one colon, before which the prefix
stands. Neither part begins with a character that cannot begin a name, and the second part is
not empty. -/
def tagOf? (cs : List Char) : Option Tag :=
  let first := cs.takeWhile (· != ':')
  let (tagPrefix, name) := match cs.dropWhile (· != ':') with
    | _ :: rest => (first, rest)
    | [] => ([], cs)
  let begins (part : List Char) : Bool := match part with
    | c :: _ => isNameStart c
    | [] => true
  if name.isEmpty || name.contains ':' || !begins tagPrefix || !begins name then none
  else some ⟨String.ofList tagPrefix, String.ofList name⟩

/-- A tag's name and what follows it. -/
def tag? (cs : List Char) : Option (Tag × List Char) :=
  (tagOf? (cs.takeWhile isNameChar)).map (·, cs.dropWhile isNameChar)

/-- A text in quotes of either kind, and what follows it. -/
def quoted? (cs : List Char) : Option (List Char × List Char) :=
  match cs with
  | '"' :: rest => splitAt? ['"'] rest
  | '\'' :: rest => splitAt? ['\''] rest
  | _ => none

/-! ### References -/

/-- A unit of character data. -/
inductive Piece where
  | plain (c : Char)
  /-- A reference to a character. -/
  | character (c : Char)
  /-- A reference to an entity of the document. -/
  | entity (name : List Char)

/-- The number that digits of a base write, below `2 ^ 32`. -/
def codePoint? (base : Nat) (value : Char → Option Nat) (digits : List Char) : Option Nat :=
  if digits.isEmpty then none
  else
    let n := digits.foldl (fun n c => n * base + (value c).getD 0) 0
    if n < Nat.pow 2 32 then some n else none

def decimalDigit? (c : Char) : Option Nat :=
  if '0' ≤ c ∧ c ≤ '9' then some (c.toNat - '0'.toNat) else none

def hexDigit? (c : Char) : Option Nat :=
  if 'a' ≤ c ∧ c ≤ 'f' then some (c.toNat - 'a'.toNat + 10)
  else if 'A' ≤ c ∧ c ≤ 'F' then some (c.toNat - 'A'.toNat + 10)
  else decimalDigit? c

/-- The character with a code point; a number that is none stands for the replacement
character. -/
def characterOf? (n : Nat) : Option Char :=
  let c := if n.isValidChar then Char.ofNat n else Char.ofNat 0xFFFD
  if isAllowed c then some c else none

/-- The entities that need no declaration. -/
def predefined? (name : List Char) : Option Char :=
  if name = ['l', 't'] then some '<'
  else if name = ['g', 't'] then some '>'
  else if name = ['a', 'm', 'p'] then some '&'
  else if name = ['q', 'u', 'o', 't'] then some '"'
  else if name = ['a', 'p', 'o', 's'] then some '\''
  else none

/-- A reference after its ampersand, and what follows its semicolon. -/
def reference? (cs : List Char) : Option (Piece × List Char) := do
  let (piece, rest) ← match cs with
    | '#' :: 'x' :: rest => do
      let isDigit (c : Char) : Bool := (hexDigit? c).isSome
      let n ← codePoint? 16 hexDigit? (rest.takeWhile isDigit)
      let c ← characterOf? n
      pure (Piece.character c, rest.dropWhile isDigit)
    | '#' :: rest => do
      let isDigit (c : Char) : Bool := (decimalDigit? c).isSome
      let n ← codePoint? 10 decimalDigit? (rest.takeWhile isDigit)
      let c ← characterOf? n
      pure (Piece.character c, rest.dropWhile isDigit)
    | _ => do
      let (name, rest) ← name? cs
      pure (((predefined? name).map Piece.character).getD (.entity name), rest)
  match rest with
  | ';' :: rest => some (piece, rest)
  | _ => none

/-- Splits character data at its references. The step count bounds the pieces. -/
def piecesWithin : Nat → List Char → Option (List Piece)
  | _, [] => some []
  | 0, _ :: _ => none
  | steps + 1, c :: rest =>
    if c = '&' then do
      let (piece, rest) ← reference? rest
      let pieces ← piecesWithin steps rest
      return piece :: pieces
    else (piecesWithin steps rest).map (.plain c :: ·)

/-- Splits character data at its references. -/
def pieces? (cs : List Char) : Option (List Piece) := piecesWithin cs.length cs

/-! ### Attribute values -/

/-- How many entities were expanded inside another one. -/
abbrev Expanded := Nat

/-- At most so many entities may be expanded inside one. -/
def greatestExpanded : Nat := 255

/-- Entities may be nested this deep. -/
def greatestDepth : Nat := 10

/-- Counts the expansion of an entity, which is free outside of any. -/
def countExpansion? (inside : Bool) (count : Expanded) : Option Expanded :=
  if !inside then some count
  else if count = greatestExpanded then none
  else some (count + 1)

/-- The value of an attribute: blanks of any kind are spaces, a line break is one of them, and
characters given by reference stand for themselves. Inside an entity references are subject to
the same, and no opening angle bracket may come of one. -/
def normalize (inside : Bool)
    (expand : List Char → Expanded → Option (List Char × Expanded)) :
    Expanded → List Piece → Option (List Char × Expanded)
  | count, [] => some ([], count)
  | count, .plain c :: rest =>
    if inside ∧ c = '<' then none
    else
      let follows : Bool := match rest with
        | .plain d :: _ => d == '\n'
        | _ => false
      if c = '\r' ∧ follows then normalize inside expand count rest
      else (normalize inside expand count rest).map fun (cs, count) =>
        ((if isSpace c then ' ' else c) :: cs, count)
  | count, .character c :: rest =>
    if inside ∧ c = '<' then none
    else (normalize inside expand count rest).map fun (cs, count) =>
      ((if inside ∧ isSpace c then ' ' else c) :: cs, count)
  | count, .entity name :: rest => do
    let count ← countExpansion? inside count
    let (cs, count) ← expand name count
    let (more, count) ← normalize inside expand (if inside then count else 0) rest
    return (cs ++ more, count)

/-- The value that characters write, with entities nested so deep at most; `inside` says whether
they are those of an entity. -/
def attributeValue (entities : Entities) (inside : Bool) :
    Nat → Expanded → List Char → Option (List Char × Expanded)
  | 0, count, cs => (pieces? cs).bind (normalize inside (fun _ _ => none) count)
  | depth + 1, count, cs =>
    (pieces? cs).bind (normalize inside (fun name count =>
      (entities.lookup name).bind (attributeValue entities true depth count)) count)

/-! ### Tags -/

/-- An attribute of a tag: a name, an equals sign, and a value in quotes without an opening angle
bracket. -/
def attribute? (cs : List Char) : Option (Tag × List Char × List Char) := do
  let (tag, rest) ← tag? cs
  let rest ← afterToken? "=" (skipSpaces rest)
  let (value, rest) ← quoted? (skipSpaces rest)
  if value.contains '<' || !value.all isAllowed then none else some (tag, value, rest)

/-- The rest of a start tag after its name: its attributes as written, whether it is also the end
of the element, and what follows it. A blank stands before every attribute. -/
def startRest? : Nat → List (Tag × List Char) → List Char →
    Option (List (Tag × List Char) × Bool × List Char)
  | 0, _, _ => none
  | steps + 1, read, cs =>
    let spaced : Bool := match cs with
      | c :: _ => isSpace c
      | [] => false
    match skipSpaces cs with
    | '/' :: '>' :: rest => some (read.reverse, true, rest)
    | '>' :: rest => some (read.reverse, false, rest)
    | [] => none
    | rest =>
      if spaced then do
        let (tag, value, rest) ← attribute? rest
        startRest? steps ((tag, value) :: read) rest
      else none

/-- Expands the values of the attributes in turn. -/
def expandAttributes (value : Expanded → List Char → Option (List Char × Expanded)) :
    Expanded → List (Tag × List Char) → Option (List (Tag × String) × Expanded)
  | count, [] => some ([], count)
  | count, (tag, written) :: rest => do
    let (cs, count) ← value count written
    let (more, count) ← expandAttributes value count rest
    return ((tag, String.ofList cs) :: more, count)

/-! ### Content -/

/-- What follows a comment after its opening. Two hyphens end it. -/
def afterComment? (cs : List Char) : Option (List Char) := do
  let (inside, rest) ← splitAt? ['-', '-', '>'] cs
  if occurs "--" inside || inside.getLast? = some '-' || !inside.all isAllowed then none
  else some rest

/-- What follows a processing instruction. It is not the declaration of the document. -/
def afterInstruction? (cs : List Char) : Option (List Char) := do
  if startsWith "<?xml " cs then none
  let rest ← afterToken? "<?" cs
  let (_, rest) ← name? rest
  let (inside, rest) ← splitAt? ['?', '>'] rest
  if inside.all isAllowed then some rest else none

/-- A piece inside an entity, where a character given by reference counts like any other. -/
def Piece.within (inside : Bool) : Piece → Piece
  | .character c => if inside then .plain c else .character c
  | piece => piece

/-- Character data with its line breaks, of whatever form, as line feeds. A carriage return is a
line break if a plain character follows, or if the data end with it: `final` says whether nothing
follows these pieces. Characters given by reference are left as they are, and do not make a break
of a carriage return before them; nor does the end make one of a carriage return right behind
a reference, which `referred` tells of. -/
def lineBreaks (final : Bool) : Bool → List Piece → List Char
  | _, [] => []
  | referred, [.plain '\r'] => [if final && !referred then '\n' else '\r']
  | _, .plain '\r' :: .plain '\n' :: rest => '\n' :: lineBreaks final false rest
  | _, .plain '\r' :: .plain c :: rest => '\n' :: lineBreaks final false (.plain c :: rest)
  | _, .plain c :: rest => c :: lineBreaks final false rest
  | _, .character c :: rest => c :: lineBreaks final true rest
  | _, .entity _ :: rest => lineBreaks final false rest

/-- Character data with line feeds. -/
def withLineFeeds (inside final : Bool) (pieces : List Piece) : List Char :=
  lineBreaks final false (pieces.map (Piece.within inside))

/-- The event of character data, if there is any. -/
def textEvent (cs : List Char) : List Event := if cs.isEmpty then [] else [.text (String.ofList cs)]

/-- Whether a piece is a reference to an entity. -/
def Piece.isEntity : Piece → Bool
  | .entity _ => true
  | _ => false

/-- The events of character data: its own, and those of the entities in it. `held` are the pieces
since the last entity, last first. -/
def textEvents (inside : Bool) (expand : List Char → Expanded → Option (List Event × Expanded)) :
    List Piece → Expanded → List Piece → Option (List Event × Expanded)
  | held, count, [] => some (textEvent (withLineFeeds inside true held.reverse), count)
  | held, count, .entity name :: rest => do
    let count ← countExpansion? inside count
    let (events, count) ← expand name count
    let (more, count) ← textEvents inside expand [] (if inside then count else 0) rest
    return (textEvent (withLineFeeds inside false held.reverse) ++ events ++ more, count)
  | held, count, piece :: rest => textEvents inside expand (piece :: held) count rest

/-- What ends a run of content. -/
inductive Ending where
  /-- The end tag of its first element. -/
  | element
  /-- The end of the text, with no element open. -/
  | text
  deriving DecidableEq

/-- Reads content with its events, last first, in `read`, and `opened` elements not yet closed.
The step count bounds the parts of the content. The result are the events in order and what
follows. -/
def content (inside : Bool) (ending : Ending)
    (value : Expanded → List Char → Option (List Char × Expanded))
    (expand : List Char → Expanded → Option (List Event × Expanded)) :
    Nat → List Event → Nat → Expanded → List Char → Option (List Event × Expanded × List Char)
  | 0, _, _, _, _ => none
  | steps + 1, read, opened, count, cs =>
    match cs with
    | [] =>
      if ending = .text ∧ opened = 0 then some (read.reverse, count, []) else none
    | '<' :: '/' :: rest => do
      let (tag, rest) ← tag? rest
      let rest ← afterToken? ">" (skipSpaces rest)
      if opened = 0 then none
      else if opened = 1 ∧ ending = .element then
        some ((.stop tag :: read).reverse, count, rest)
      else content inside ending value expand steps (.stop tag :: read) (opened - 1) count rest
    | '<' :: '!' :: rest =>
      match afterToken? "--" rest with
      | some rest => do
        let rest ← afterComment? rest
        content inside ending value expand steps read opened count rest
      | none => do
        let rest ← afterToken? "[CDATA[" rest
        let (data, rest) ← splitAt? [']', ']', '>'] rest
        if data.all isAllowed then
          let events := textEvent (withLineFeeds inside true (data.map .plain))
          content inside ending value expand steps (events ++ read) opened count rest
        else none
    | '<' :: '?' :: _ => do
      let rest ← afterInstruction? cs
      content inside ending value expand steps read opened count rest
    | '<' :: rest => do
      let (tag, rest) ← tag? rest
      let (written, closed, rest) ← startRest? (rest.length + 1) [] rest
      let (attributes, count) ← expandAttributes value count written
      let event := Event.start tag attributes
      if closed then
        if opened = 0 ∧ ending = .element then
          some ((.stop tag :: event :: read).reverse, count, rest)
        else content inside ending value expand steps (.stop tag :: event :: read) opened count rest
      else content inside ending value expand steps (event :: read) (opened + 1) count rest
    | _ =>
      let data := cs.takeWhile (· != '<')
      if occurs "]]>" data || !data.all isAllowed then none
      else do
        let pieces ← pieces? data
        let (events, count) ← textEvents inside expand [] count pieces
        content inside ending value expand steps (events.reverse ++ read) opened count
          (cs.dropWhile (· != '<'))

/-- The events of the text of an entity, with entities nested so deep at most. The text holds
whole elements only. -/
def entityEvents (entities : Entities) :
    Nat → List Char → Expanded → Option (List Event × Expanded)
  | 0, _, _ => none
  | depth + 1, name, count => do
    let text ← entities.lookup name
    let (events, count, _) ← content true .text (attributeValue entities true depth)
      (entityEvents entities depth) (text.length + 1) [] 0 count text
    return (events, count)

/-! ### Documents -/

/-- What follows blanks, comments and processing instructions. -/
def afterMisc? : Nat → List Char → Option (List Char)
  | 0, _ => none
  | steps + 1, cs =>
    let cs := skipSpaces cs
    match afterToken? "<!--" cs with
    | some rest => (afterComment? rest).bind (afterMisc? steps)
    | none =>
      if startsWith "<?" cs then (afterInstruction? cs).bind (afterMisc? steps) else some cs

/-- What follows an attribute of the declaration and the blanks behind it. -/
def afterDeclared? (cs : List Char) : Option (List Char) := do
  let (_, _, rest) ← attribute? cs
  match afterSpaces? rest with
  | some rest => some rest
  | none => if rest.isEmpty || startsWith "?>" rest then some rest else none

/-- What follows the declaration of the document: the version, then optionally the encoding and
whether it stands alone. -/
def afterDeclaration? (cs : List Char) : Option (List Char) :=
  match afterToken? "<?xml " cs with
  | none => some cs
  | some rest => do
    let rest := skipSpaces rest
    if !startsWith "version" rest then none
    let rest ← afterDeclared? rest
    let rest ← if startsWith "encoding" rest then afterDeclared? rest else some rest
    let rest ← if startsWith "standalone" rest then (attribute? rest).map (·.2.2) else some rest
    afterToken? "?>" (skipSpaces rest)

/-- What follows an external identifier; nothing changes if there is none. -/
def afterExternal? (cs : List Char) : Option (List Char) :=
  if startsWith "SYSTEM" cs then do
    let rest ← afterSpaces? (cs.drop 6)
    let (_, rest) ← quoted? rest
    return rest
  else if startsWith "PUBLIC" cs then do
    let rest ← afterSpaces? (cs.drop 6)
    let (_, rest) ← quoted? rest
    let rest ← afterSpaces? rest
    let (_, rest) ← quoted? rest
    return rest
  else some cs

/-- The declaration of an entity after its opening: the entity, unless its text lies elsewhere,
and what follows. -/
def entity? (cs : List Char) : Option (Entities × List Char) := do
  let rest ← afterSpaces? cs
  let (parameter, rest) ← match rest with
    | '%' :: rest => (afterSpaces? rest).map (true, ·)
    | _ => some (false, rest)
  let (name, rest) ← name? rest
  let rest ← afterSpaces? rest
  let (declared, rest) ←
    if startsWith "SYSTEM" rest || startsWith "PUBLIC" rest then do
      let rest ← afterExternal? rest
      let behind := skipSpaces rest
      if !parameter && startsWith "NDATA" behind then do
        let behind ← afterSpaces? (behind.drop 5)
        let (_, behind) ← name? behind
        pure ([], behind)
      else pure ([], rest)
    else do
      let (text, rest) ← quoted? rest
      pure ([(name, text)], rest)
  let rest ← afterToken? ">" (skipSpaces rest)
  return (declared, rest)

/-- The declarations of the document type up to its closing bracket: the entities in order, and
what follows. -/
def subset? : Nat → Entities → List Char → Option (Entities × List Char)
  | 0, _, _ => none
  | steps + 1, entities, cs =>
    let cs := skipSpaces cs
    if startsWith "]" cs then
      (afterToken? ">" (skipSpaces (cs.drop 1))).map (entities, ·)
    else if startsWith "<!ENTITY" cs then do
      let (declared, rest) ← entity? (cs.drop 8)
      subset? steps (entities ++ declared) rest
    else if startsWith "<!--" cs then (afterComment? (cs.drop 4)).bind (subset? steps entities)
    else if startsWith "<?" cs then (afterInstruction? cs).bind (subset? steps entities)
    else if ["<!ELEMENT", "<!ATTLIST", "<!NOTATION"].any fun token => startsWith token cs then
      (splitAt? ['>'] cs).bind fun (_, rest) => subset? steps entities rest
    else none

/-- The entities of the document type, if there is one, and what follows it. -/
def documentType? (cs : List Char) : Option (Entities × List Char) :=
  match afterToken? "<!DOCTYPE" cs with
  | none => some ([], cs)
  | some rest => do
    let rest ← afterSpaces? rest
    let (_, rest) ← name? rest
    let rest ← afterExternal? (skipSpaces rest)
    match skipSpaces rest with
    | '>' :: rest => some ([], rest)
    | '[' :: rest => subset? (rest.length + 1) [] rest
    | _ => none

/-- The text without the mark of its byte order. -/
def withoutMark (cs : List Char) : List Char :=
  match cs with
  | c :: rest => if c.toNat = 0xFEFF then rest else cs
  | [] => []

/-- Whether an element begins here. -/
def startsWithElement (cs : List Char) : Bool :=
  match cs with
  | '<' :: c :: _ => isNameStart c
  | _ => false

/-- The events of a document: those of its one root element. -/
def events? (text : String) : Option (List Event) := do
  let cs ← afterDeclaration? (withoutMark text.toList)
  let cs ← afterMisc? (cs.length + 1) cs
  let (entities, cs) ← documentType? cs
  let cs ← afterMisc? (cs.length + 1) cs
  if !startsWithElement cs then none
  let (events, _, rest) ← content false .element (attributeValue entities false greatestDepth)
    (entityEvents entities greatestDepth) (cs.length + 1) [] 0 0 cs
  let rest ← afterMisc? (rest.length + 1) rest
  if rest.isEmpty then some events else none

end Xml

end Crosswalk
