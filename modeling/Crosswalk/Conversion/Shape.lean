import Crosswalk.Conversion.Basic

/-!
# Shapes of objects

The content of a complex type is collected into a shape: one slot for each name of an element or
attribute, the constraints of choices and referenced groups, and the schema of the character data.
The slots stand in the order in which their names occur first, and no name has two. An element
that occurs again joins the slot it has: `Slot.andThen` if both occurrences count, `Slot.orElse` if
only one of them does. An attribute that occurs again replaces the earlier one, as a derived type
overrides its base. A name never belongs to an element and an attribute together.
-/

namespace Crosswalk

/-- A property of an object. -/
structure Slot where
  /-- The schema of one occurrence. -/
  item : Json
  bounds : Bounds
  required : Bool
  isAttribute : Bool

namespace Slot

/-- The slot of an element with these bounds. -/
def ofElement (item : Json) (bounds : Bounds) : Slot :=
  { item, bounds, required := bounds.isRequired, isAttribute := false }

/-- The slot of an attribute. -/
def ofAttribute (item : Json) (required : Bool) : Slot :=
  { item, bounds := if required then .once else .optional, required, isAttribute := true }

/-- The slot of a member that a referenced group describes: anything, and not required here. -/
def placeholder : Slot :=
  { item := .bool true, bounds := .optional, required := false, isAttribute := false }

/-- The schema of one occurrence in either of two slots. -/
def eitherItem (a b : Slot) : Json :=
  if a.item.alike b.item then a.item else .object [("anyOf", .array [a.item, b.item])]

/-- Occurrences in both slots: the bounds add up. -/
def andThen (a b : Slot) : Slot :=
  { a with
    item := a.eitherItem b
    bounds := a.bounds.plus b.bounds
    required := a.required || b.required }

/-- Occurrences in one of two slots: the wider bounds win. -/
def orElse (a b : Slot) : Slot :=
  { a with
    item := a.eitherItem b
    bounds := a.bounds.either b.bounds
    required := a.required && b.required }

/-- The schema of the property: an array of occurrences if there can be more than one. -/
def schema (s : Slot) : Json :=
  if s.bounds.most.isRepeated then
    let array := Table.ofList [("type", Json.string "array"), ("items", s.item)]
    let array := if s.bounds.isRequired then
      Table.insert array "minItems" (.nat s.bounds.least.toNat) else array
    match s.bounds.most with
    | .bounded n => .object (Table.insert array "maxItems" (.nat n.toNat))
    | .unbounded => .object array
  else s.item

end Slot

/-- What became of an element that was added to a shape. -/
inductive Joined where
  /-- It has a slot of its own. -/
  | added
  /-- It joined the slot of an element with its name. -/
  | merged
  /-- An attribute has its name, and the element was dropped. -/
  | dropped
  deriving DecidableEq

/-- The content of a complex type or model group. -/
structure Shape where
  slots : List (String × Slot) := []
  /-- The constraints of choices. -/
  choices : List Json := []
  /-- References to model groups. -/
  groups : List Json := []
  /-- The schema of the character data, if there may be any. -/
  text : Option Json := none
  /-- Whether members that are not declared are admitted. -/
  isOpen : Bool := false

namespace Shape

/-- The slot of a name. -/
def slot? (s : Shape) (name : String) : Option Slot := Table.find? s.slots name

/-- The names of the slots. -/
def names (s : Shape) : List String := s.slots.map (·.1)

/-- The names of the slots that are required. -/
def requiredNames (s : Shape) : List String := (s.slots.filter fun e => e.2.required).map (·.1)

/-- Adds a slot behind the others, or changes the one that its name has. -/
def place (change : Slot → Slot) (name : String) (slot : Slot) :
    List (String × Slot) → List (String × Slot)
  | [] => [(name, slot)]
  | (n, s) :: rest =>
    if n = name then (n, change s) :: rest else (n, s) :: place change name slot rest

/-- Adds an element, by `join` to the slot of an element that has its name. -/
def addElement (s : Shape) (join : Slot → Slot → Slot) (name : String) (slot : Slot) :
    Shape × Joined :=
  match s.slot? name with
  | none => ({ s with slots := place id name slot s.slots }, .added)
  | some found =>
    if found.isAttribute then (s, .dropped)
    else ({ s with slots := place (fun old => join old slot) name slot s.slots }, .merged)

/-- Adds an attribute in place of one that has its name; none if an element has it. -/
def addAttribute? (s : Shape) (name : String) (slot : Slot) : Option Shape :=
  if (s.slot? name).any fun found => !found.isAttribute then none
  else some { s with slots := place (fun _ => slot) name slot s.slots }

/-- Removes the attribute of a name. -/
def removeAttribute (s : Shape) (name : String) : Shape :=
  { s with slots := s.slots.filter fun e => !(e.2.isAttribute && e.1 == name) }

/-- Adds the members of a referenced group, as far as the shape has to know them. -/
def addReference (s members : Shape) (reference : Json) : Shape :=
  let joined := members.names.foldl
    (fun s name => (s.addElement Slot.andThen name .placeholder).1) s
  { joined with isOpen := joined.isOpen || members.isOpen, groups := joined.groups ++ [reference] }

/-! ### Schemas -/

/-- The schemas that ask for one of the names each. -/
def presence (names : List String) : List Json :=
  names.map fun name => .object [("required", .strings [name])]

/-- An object that has none of the names. -/
def absence (names : List String) : Json := .object [("anyOf", .array (presence names))]

/-- The properties of the object: the character data, and the slots. -/
def properties (s : Shape) (textProperty : String) : Table String Json :=
  Table.ofList ((s.text.toList.map fun text => (textProperty, text)) ++
    s.slots.map fun e => (e.1, e.2.schema))

/-- The properties that the object has to have. -/
def requiredProperties (s : Shape) (textProperty : String) : List String :=
  (s.text.toList.map fun _ => textProperty) ++ s.requiredNames

/-- The keywords of the constraints. The keywords of a single one stand in the object itself, unless
it is a reference. -/
def constraints (s : Shape) : List (String × Json) :=
  match s.choices ++ s.groups with
  | [] => []
  | [.object fields] =>
    if Table.contains fields "$ref" then [("allOf", .array [.object fields])] else fields
  | several => [("allOf", .array several)]

/-- The schema of the object. Members that are not declared are refused if `closed` says so. -/
def schema (s : Shape) (closed : Bool) (textProperty : String) : Json :=
  let properties := s.properties textProperty
  let required := s.requiredProperties textProperty
  .ofFields ([("type", .string "object")] ++
    (if properties.isEmpty then [] else [("properties", .object properties)]) ++
    (if required.isEmpty then [] else [("required", .strings required)]) ++
    (if closed && !s.isOpen then [("additionalProperties", .bool false)] else []) ++
    s.constraints)

/-! ### Choices -/

/-- Whether a name occurs in two of the branches. -/
def overlap : List Shape → Bool
  | [] => false
  | branch :: rest =>
    (branch.names.any fun name => rest.any fun other => other.names.contains name) || overlap rest

/-- What an object has to satisfy to be content of a branch: it has the required members of the
branch, or any member if none is required, and nothing of the other branches. -/
def alternative (branch : Shape) (all : List String) (exclusive : Bool) : Json :=
  let required := branch.requiredNames
  let others := all.filter fun name => !branch.names.contains name
  .ofFields (
    (if !required.isEmpty then [("required", .strings required)]
      else if !branch.names.isEmpty then [("anyOf", .array (presence branch.names))]
      else []) ++
    (if exclusive && !others.isEmpty then [("not", absence others)] else []) ++
    (if branch.choices.isEmpty then [] else [("allOf", .array branch.choices)]))

/-- The constraint of a choice that has to be made if `obliged`. Branches without members are no
alternatives; but if one can be chosen, or a member of a branch is not required, an object may as
well have none of the members. -/
def choice? (branches : List Shape) (obliged : Bool) : Option Json :=
  let all := branches.flatMap names
  let exclusive := !overlap branches
  let alternatives := (branches.filter fun b => !b.names.isEmpty).map fun b =>
    b.alternative all exclusive
  if alternatives.isEmpty then none
  else
    let emptiable := !obliged || branches.any fun b => b.requiredNames.isEmpty
    let none := if emptiable then [.object [("not", absence all)]] else []
    some (.object [(if exclusive then "oneOf" else "anyOf", .array (alternatives ++ none))])

end Shape

end Crosswalk
