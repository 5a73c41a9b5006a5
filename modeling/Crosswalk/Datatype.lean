import Crosswalk.Number.Lexical

/-!
# Built-in datatypes

The datatypes of XML Schema that every simple type goes back to, and the JSON Schema keywords of
each. The value space of a datatype decides which facets can be expressed and how a literal
(an enumerated, fixed or default value) is written: `ValueSpace.literal` gives a truth value or a
number where the space has them and the literal denotes one, and a string otherwise.
-/

namespace Crosswalk

/-- The families of values. -/
inductive ValueSpace where
  /-- Character data: strings, tokens, names, references. -/
  | text
  /-- Binary data written as text. -/
  | binary
  | boolean
  | integer
  /-- Numbers that need not be whole. -/
  | decimal
  /-- Dates, times, durations and their parts. -/
  | temporal
  /-- Any simple value. -/
  | anySimple
  deriving DecidableEq, Repr

namespace ValueSpace

/-- Whether length facets can be expressed. -/
def hasLength (space : ValueSpace) : Bool := space == .text

/-- Whether patterns can be expressed: they constrain strings only. -/
def hasPattern (space : ValueSpace) : Bool :=
  space == .text || space == .binary || space == .temporal

/-- Whether range facets can be expressed. -/
def isNumeric (space : ValueSpace) : Bool := space == .integer || space == .decimal

/-- The truth value that a literal denotes; blanks around it do not count. -/
def truthValue? (literal : String) : Option Bool :=
  let word := Text.trim literal
  if word = "true" ∨ word = "1" then some true
  else if word = "false" ∨ word = "0" then some false
  else none

/-- A literal as a value of the space; one that denotes none stays a string as written. -/
def literal (space : ValueSpace) (lexical : String) : Json :=
  if space = .boolean then ((truthValue? lexical).map .bool).getD (.string lexical)
  else if space.isNumeric then ((Number.ofLexical? lexical).map .number).getD (.string lexical)
  else .string lexical

/-- Whether two literals denote one value of the space. Numbers are compared as floating-point
numbers, so that `01` and `1` are the same. -/
def sameValue (space : ValueSpace) (a b : String) : Bool :=
  if space.isNumeric then
    let number? := fun text => (Numeral.ofText? text).bind Numeral.toDouble?
    match number? a, number? b with
    | some x, some y => x.compare y == .eq
    | _, _ => Text.trim a == Text.trim b
  else if space = .boolean then
    match truthValue? a, truthValue? b with
    | some x, some y => x == y
    | none, none => a == b
    | _, _ => false
  else a == b

end ValueSpace

/-- A built-in datatype. -/
structure Datatype where
  /-- Its name within XML Schema. -/
  name : String
  space : ValueSpace
  /-- A hint at the form of its values. -/
  format : Option String := none
  /-- An anchored expression that its values match. -/
  pattern : Option String := none
  /-- How its values encode binary data. -/
  encoding : Option String := none
  least : Option String := none
  greatest : Option String := none
  deriving DecidableEq, Repr

namespace Datatype

private def integer (name : String) (least greatest : Option String) : Datatype :=
  { name, space := .integer, least, greatest }

private def dated (name format : String) : Datatype :=
  { name, space := .temporal, format := some format }

private def zoneSuffix : String := "(?:Z|[+-](?:0[0-9]|1[0-4]):[0-5][0-9])?$"

/-- The built-in datatypes. -/
def all : List Datatype := [
  ⟨"string", .text, none, none, none, none, none⟩,
  ⟨"normalizedString", .text, none, none, none, none, none⟩,
  ⟨"token", .text, none, none, none, none, none⟩,
  ⟨"language", .text, none, none, none, none, none⟩,
  ⟨"Name", .text, none, none, none, none, none⟩,
  ⟨"NCName", .text, none, none, none, none, none⟩,
  ⟨"ID", .text, none, none, none, none, none⟩,
  ⟨"IDREF", .text, none, none, none, none, none⟩,
  ⟨"IDREFS", .text, none, none, none, none, none⟩,
  ⟨"ENTITY", .text, none, none, none, none, none⟩,
  ⟨"ENTITIES", .text, none, none, none, none, none⟩,
  ⟨"NMTOKEN", .text, none, none, none, none, none⟩,
  ⟨"NMTOKENS", .text, none, none, none, none, none⟩,
  ⟨"QName", .text, none, none, none, none, none⟩,
  ⟨"NOTATION", .text, none, none, none, none, none⟩,
  ⟨"anyURI", .text, some "uri-reference", none, none, none, none⟩,
  ⟨"base64Binary", .binary, none, none, some "base64", none, none⟩,
  ⟨"hexBinary", .binary, none, some "^(?:[0-9a-fA-F]\x7b2\x7d)*$", none, none, none⟩,
  ⟨"boolean", .boolean, none, none, none, none, none⟩,
  ⟨"decimal", .decimal, none, none, none, none, none⟩,
  ⟨"float", .decimal, none, none, none, none, none⟩,
  ⟨"double", .decimal, none, none, none, none, none⟩,
  ⟨"precisionDecimal", .decimal, none, none, none, none, none⟩,
  integer "integer" none none,
  integer "nonPositiveInteger" none (some "0"),
  integer "negativeInteger" none (some "-1"),
  integer "nonNegativeInteger" (some "0") none,
  integer "positiveInteger" (some "1") none,
  integer "long" (some "-9223372036854775808") (some "9223372036854775807"),
  integer "int" (some "-2147483648") (some "2147483647"),
  integer "short" (some "-32768") (some "32767"),
  integer "byte" (some "-128") (some "127"),
  integer "unsignedLong" (some "0") (some "18446744073709551615"),
  integer "unsignedInt" (some "0") (some "4294967295"),
  integer "unsignedShort" (some "0") (some "65535"),
  integer "unsignedByte" (some "0") (some "255"),
  dated "dateTime" "date-time",
  dated "dateTimeStamp" "date-time",
  dated "date" "date",
  dated "time" "time",
  dated "duration" "duration",
  dated "dayTimeDuration" "duration",
  dated "yearMonthDuration" "duration",
  dated "gYear" "year",
  dated "gYearMonth" "year-month",
  ⟨"gMonth", .temporal, none, some ("^--(?:0[1-9]|1[0-2])" ++ zoneSuffix), none, none, none⟩,
  ⟨"gDay", .temporal, none, some ("^---(?:0[1-9]|[12][0-9]|3[01])" ++ zoneSuffix), none, none,
    none⟩,
  ⟨"gMonthDay", .temporal, none,
    some ("^--(?:0[1-9]|1[0-2])-(?:0[1-9]|[12][0-9]|3[01])" ++ zoneSuffix), none, none, none⟩,
  ⟨"anySimpleType", .anySimple, none, none, none, none, none⟩,
  ⟨"anyAtomicType", .anySimple, none, none, none, none, none⟩]

/-- The datatype with a name. The type of anything at all is no datatype. -/
def find? (name : String) : Option Datatype := all.find? fun d => d.name == name

/-- Whether a name is a type of XML Schema itself. -/
def isKnown (name : String) : Bool := name == "anyType" || (find? name).isSome

/-- The types that the values of a space have in a document. -/
def typeKeyword : ValueSpace → Json
  | .text => .string "string"
  | .binary => .string "string"
  | .temporal => .string "string"
  | .boolean => .string "boolean"
  | .integer => .string "integer"
  | .decimal => .string "number"
  | .anySimple => .strings ["string", "number", "boolean"]

/-- Adds a keyword if it has a value. -/
def withKeyword (keywords : Table String Json) (name : String) (value : Option Json) :
    Table String Json :=
  match value with
  | some v => keywords.insert name v
  | none => keywords

/-- The keywords of the datatype apart from its pattern and range. -/
def keywords (d : Datatype) : Table String Json :=
  let typed := Table.insert [] "type" (typeKeyword d.space)
  let formatted := withKeyword typed "format" (d.format.map .string)
  withKeyword formatted "contentEncoding" (d.encoding.map .string)

/-- The keywords of the datatype with its pattern and range. -/
def fullKeywords (d : Datatype) : Table String Json :=
  let patterned := withKeyword d.keywords "pattern" (d.pattern.map .string)
  let bounded := withKeyword patterned "minimum" ((d.least.bind Number.ofLexical?).map .number)
  withKeyword bounded "maximum" ((d.greatest.bind Number.ofLexical?).map .number)

/-- The schema of a type of XML Schema itself. The type of anything at all admits everything. -/
def schemaOf? (name : String) : Option Json :=
  if name = "anyType" then some (.object [])
  else (find? name).map fun d => .object d.fullKeywords

end Datatype

end Crosswalk
