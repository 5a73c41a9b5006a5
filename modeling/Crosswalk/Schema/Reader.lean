import Crosswalk.Number.Lexical
import Crosswalk.Schema.Component
import Crosswalk.Schema.Construct

/-!
# Reading schema documents

`Schema.ofText` reads the text of a file as a schema. A text that is not XML, has another root,
lacks a name or a base that it needs, uses a prefix that is not bound, or states impossible
occurrence bounds is malformed, and the first such fault in document order is the reason.
Constructs that are known and have no counterpart are passed over and noted.
-/

namespace Crosswalk

namespace Schema

/-- What holds for the whole document. -/
structure Setting where
  filename : String
  targetSpace : String
  elementForm : Form
  attributeForm : Form

/-- A reading notes what it passes over; its error is the reason that the document is malformed. -/
abbrev Reading (α : Type) := StateT (List Problem) (Except String) α

namespace Reading

/-- The document is malformed. -/
def malformed {α : Type} (reason : String) : Reading α := fun _ => .error reason

/-- Notes a construct that is passed over. -/
def note (setting : Setting) (location construct : String) : Reading Unit := fun notes =>
  .ok ((), notes ++ [.unsupported setting.filename location construct])

/-- A result that may be a reason. -/
def lift {α : Type} (result : Except String α) : Reading α := fun notes =>
  match result with
  | .ok a => .ok (a, notes)
  | .error reason => .error reason

end Reading

open Reading (malformed note)

/-- The value of an attribute that has to be there. -/
def required (location : String) (c : Construct) (name : String) : Reading String :=
  match c.attribute? name with
  | some value => pure value
  | none => malformed (location ++ ": <" ++ c.name ++ "> is missing attribute '" ++ name ++ "'")

/-- The name that a text at a construct denotes. -/
def nameOf (c : Construct) (text : String) : Reading QName :=
  Reading.lift (Construct.resolve c.bindings text)

/-- The names that the words of a list at a construct denote. -/
def namesOf (c : Construct) : List String → Reading (List QName)
  | [] => pure []
  | word :: rest => do
    let name ← nameOf c word
    let names ← namesOf c rest
    return name :: names

/-- The name that an attribute denotes, if it is there. -/
def name? (c : Construct) (name : String) : Reading (Option QName) :=
  match c.attribute? name with
  | some text => do
    let q ← nameOf c text
    return some q
  | none => pure none

/-- A name in the target namespace. -/
def Setting.global (setting : Setting) (name : String) : QName := ⟨setting.targetSpace, name⟩

/-- The name of a local declaration. -/
def Setting.localName (setting : Setting) (name : String) (qualified : Bool) : QName :=
  if qualified then setting.global name else ⟨"", name⟩

/-- Whether a local declaration is qualified. -/
def isQualified (c : Construct) (default : Form) : Bool :=
  Form.ofText (c.attribute? "form") default == .qualified

/-! ### Simple types -/

/-- The facets among some constructs, in order. -/
def facets (setting : Setting) (location : String) : List Construct → Reading (List Facet)
  | [] => pure []
  | c :: rest =>
    match FacetKind.ofName? c.name with
    | some kind => do
      let value ← required location c "value"
      let more ← facets setting location rest
      return ⟨kind, value⟩ :: more
    | none => do
      if !(c.name == "simpleType" || c.concernsAttributes) then
        note setting location ("facet xs:" ++ c.name)
      facets setting location rest

mutual

/-- The simple type that the children of a construct define; the first definition counts. -/
def simpleType (setting : Setting) (location : String) : List Construct → Reading SimpleType
  | [] => malformed (location ++ ": simpleType without restriction, list or union")
  | c :: rest =>
    if c.name = "restriction" then do
      let base ← simpleBase setting location "base" c
      let facets ← facets setting location c.children
      return .restriction base facets
    else if c.name = "list" then do
      let item ← simpleBase setting location "itemType" c
      return .list item
    else if c.name = "union" then do
      let names ← namesOf c (Text.words ((c.attribute? "memberTypes").getD ""))
      let inline ← inlineMembers setting location c
      let members := names.map SimpleBase.named ++ inline
      if members.isEmpty then malformed (location ++ ": union without member types")
      else return .union members
    else do
      note setting location ("xs:" ++ c.name ++ " in simpleType")
      simpleType setting location rest

/-- The simple type that an attribute names, or else the one nested in the construct. -/
def simpleBase (setting : Setting) (location naming : String) : Construct → Reading SimpleBase
  | c@(.mk _ _ _ _ children) => do
    match ← name? c naming with
    | some name => return .named name
    | none =>
      match ← nestedSimple setting location children with
      | some type => return .inline type
      | none =>
        malformed (location ++ ": <" ++ c.name ++ "> needs '" ++ naming ++
          "' or a nested simpleType")

/-- The first simple type among some constructs. -/
def nestedSimple (setting : Setting) (location : String) :
    List Construct → Reading (Option SimpleType)
  | [] => pure none
  | .mk name _ _ _ children :: rest =>
    if name = "simpleType" then do
      let type ← simpleType setting location children
      return some type
    else nestedSimple setting location rest

/-- The simple types nested in a construct. -/
def inlineMembers (setting : Setting) (location : String) : Construct → Reading (List SimpleBase)
  | .mk _ _ _ _ children => inlineTypes setting location children

/-- The simple types among some constructs. -/
def inlineTypes (setting : Setting) (location : String) :
    List Construct → Reading (List SimpleBase)
  | [] => pure []
  | .mk name _ _ _ children :: rest =>
    if name = "simpleType" then do
      let type ← simpleType setting location children
      let more ← inlineTypes setting location rest
      return .inline type :: more
    else inlineTypes setting location rest

end

/-! ### Attributes -/

/-- An attribute declaration. -/
def attributeOf (setting : Setting) (name : QName) (qualified : Bool) (location : String)
    (c : Construct) : Reading Attribute := do
  let type ← do
    match ← name? c "type" with
    | some q => pure (some (SimpleBase.named q))
    | none => do
      let nested ← nestedSimple setting location c.children
      pure (nested.map SimpleBase.inline)
  return {
    name
    qualified := qualified && setting.targetSpace != ""
    type
    default := c.attribute? "default"
    fixed := c.attribute? "fixed"
    documentation := c.documentation }

/-- The use that a construct states. -/
def use (location : String) (c : Construct) : Reading Use :=
  match c.attribute? "use" with
  | none => pure .optional
  | some text =>
    if text = "optional" then pure .optional
    else if text = "required" then pure .required
    else if text = "prohibited" then pure .prohibited
    else malformed (location ++ ": invalid use '" ++ text ++ "'")

/-- A use of a local or global attribute. -/
def attributeUse (setting : Setting) (location : String) (c : Construct) :
    Reading AttributeUse := do
  let kind ← use location c
  match ← name? c "ref" with
  | some name => return .reference name kind (c.attribute? "default") (c.attribute? "fixed")
  | none => do
    let name ← required location c "name"
    let qualified := isQualified c setting.attributeForm
    let declaration ← attributeOf setting (setting.localName name qualified) qualified
      (location ++ "/@" ++ name) c
    return .declared declaration kind

/-- The attribute uses among some constructs, and whether they admit any further attribute. -/
def attributeUses (setting : Setting) (location : String) :
    List Construct → Reading (List AttributeUse × Bool)
  | [] => pure ([], false)
  | c :: rest =>
    if c.name = "attribute" then do
      let use ← attributeUse setting location c
      let (uses, any) ← attributeUses setting location rest
      return (use :: uses, any)
    else if c.name = "attributeGroup" then do
      let text ← required location c "ref"
      let name ← nameOf c text
      let (uses, any) ← attributeUses setting location rest
      return (.group name :: uses, any)
    else do
      let (uses, any) ← attributeUses setting location rest
      return (uses, c.name == "anyAttribute" || any)

/-! ### Particles and complex types -/

/-- The count that a text denotes. -/
def count? (text : String) : Option Count := (Numeral.word? text).map Count.ofNat

/-- The occurrence bounds of a construct. -/
def occurs (location : String) (c : Construct) : Reading (Count × Limit) := do
  let least ← match c.attribute? "minOccurs" with
    | none => pure Count.one
    | some text =>
      match count? text with
      | some n => pure n
      | none => malformed (location ++ ": invalid minOccurs '" ++ text ++ "'")
  let most ← match (c.attribute? "maxOccurs").map Text.trim with
    | none => pure Limit.one
    | some text =>
      if text = "unbounded" then pure Limit.unbounded
      else match count? text with
        | some n => pure (Limit.bounded n)
        | none => malformed (location ++ ": invalid maxOccurs '" ++ text ++ "'")
  match most with
  | .bounded m =>
    if m.toNat < least.toNat then
      malformed (location ++ ": maxOccurs " ++ Nat.repr m.toNat ++ " is below minOccurs " ++
        Nat.repr least.toNat)
    else return (least, most)
  | .unbounded => return (least, most)

/-- A reference to a model group. -/
def groupRef (location : String) (c : Construct) : Reading Particle := do
  let (least, most) ← occurs location c
  let text ← required location c "ref"
  let name ← nameOf c text
  return ⟨least, most, .groupRef name⟩

/-- The compositor of a model group. -/
def compositorOf (name : String) : Compositor :=
  if name = "choice" then .choice else if name = "all" then .all else .sequence

/-- An element declaration of the type that its children, if not its attribute, give it. -/
def elementOf (setting : Setting) (name : QName) (qualified : Bool) (location : String)
    (c : Construct) (type : ElementType) : Reading Element := do
  if (c.attribute? "substitutionGroup").isSome then note setting location "substitutionGroup"
  return {
    name
    qualified := qualified && setting.targetSpace != ""
    type
    nillable := c.attribute? "nillable" == some "true"
    default := c.attribute? "default"
    fixed := c.attribute? "fixed"
    documentation := c.documentation }

/-- The type that an element's attribute names, if any. -/
def namedType (c : Construct) : Reading ElementType := do
  match ← name? c "type" with
  | some q => return .named q
  | none => return .any

/-- The extension or restriction among some constructs: the first one counts. -/
def derivationOf? (c : Construct) : Option Derivation :=
  if c.name = "extension" then some .extension
  else if c.name = "restriction" then some .restriction
  else none

/-- The base of a derivation. -/
def derivationBase (location : String) (c : Construct) : Reading QName := do
  let text ← required location c "base"
  nameOf c text

/-- A complex type with further attributes. -/
def withUses (type : ComplexType) (uses : List AttributeUse × Bool) : ComplexType :=
  { type with
    attributes := type.attributes ++ uses.1
    anyAttribute := type.anyAttribute || uses.2 }

/-- Character data as content: the derivation among the children of a construct. -/
def simpleContent (setting : Setting) (location : String) (type : ComplexType) (outer : String) :
    List Construct → Reading ComplexType
  | [] => malformed (location ++ ": <" ++ outer ++ "> without extension or restriction")
  | c :: rest =>
    match derivationOf? c with
    | none => simpleContent setting location type outer rest
    | some derivation => do
      let base ← derivationBase location c
      let facets ← match derivation with
        | .restriction => facets setting location c.children
        | .extension => pure []
      let uses ← attributeUses setting location c.children
      return { withUses type uses with content := .simple base derivation facets }

mutual

/-- A complex type, read from its children one by one. The last content counts. -/
def complexParts (setting : Setting) (location : String) (type : ComplexType) :
    List Construct → Reading ComplexType
  | [] => pure type
  | c :: rest =>
    if c.isGroup then do
      let particle ← groupParticle setting location c
      complexParts setting location { type with content := .particle particle } rest
    else if c.name = "group" then do
      let particle ← groupRef location c
      complexParts setting location { type with content := .particle particle } rest
    else if c.name = "simpleContent" then do
      let type ← simpleContent setting location type c.name c.children
      complexParts setting location type rest
    else if c.name = "complexContent" then do
      let type := { type with mixed := type.mixed || c.attribute? "mixed" == some "true" }
      let type ← complexContent setting location type c
      complexParts setting location type rest
    else do
      if !c.concernsAttributes then note setting location ("xs:" ++ c.name ++ " in complexType")
      complexParts setting location type rest

/-- Content that derives from that of another type. -/
def complexContent (setting : Setting) (location : String) (type : ComplexType) :
    Construct → Reading ComplexType
  | .mk name _ _ _ children => derivedContent setting location type name children

/-- The derivation among the children of a construct. -/
def derivedContent (setting : Setting) (location : String) (type : ComplexType) (outer : String) :
    List Construct → Reading ComplexType
  | [] => malformed (location ++ ": <" ++ outer ++ "> without extension or restriction")
  | c@(.mk _ _ _ _ inner) :: rest =>
    match derivationOf? c with
    | none => derivedContent setting location type outer rest
    | some derivation => do
      let base ← derivationBase location c
      let particle ← derivedParticle setting location none inner
      let uses ← attributeUses setting location inner
      let content := match derivation with
        | .extension => Content.extension base particle
        | .restriction => Content.restriction base particle
      return { withUses type uses with content }

/-- The particle of a derivation; the last one counts. -/
def derivedParticle (setting : Setting) (location : String) (particle : Option Particle) :
    List Construct → Reading (Option Particle)
  | [] => pure particle
  | c :: rest =>
    if c.isGroup then do
      let particle ← groupParticle setting location c
      derivedParticle setting location (some particle) rest
    else if c.name = "group" then do
      let particle ← groupRef location c
      derivedParticle setting location (some particle) rest
    else do
      if !c.concernsAttributes then note setting location ("xs:" ++ c.name ++ " in complexContent")
      derivedParticle setting location particle rest

/-- A nested model group. -/
def groupParticle (setting : Setting) (location : String) : Construct → Reading Particle
  | c@(.mk name _ _ _ children) => do
    let (least, most) ← occurs location c
    let particles ← particles setting (location ++ "/" ++ name) children
    return ⟨least, most, .group ⟨compositorOf name, particles⟩⟩

/-- The particles among some constructs. -/
def particles (setting : Setting) (location : String) : List Construct → Reading (List Particle)
  | [] => pure []
  | c :: rest =>
    if c.name = "element" then do
      let particle ← elementParticle setting location c
      let more ← particles setting location rest
      return particle :: more
    else if c.isGroup then do
      let particle ← groupParticle setting location c
      let more ← particles setting location rest
      return particle :: more
    else if c.name = "group" then do
      let particle ← groupRef location c
      let more ← particles setting location rest
      return particle :: more
    else if c.name = "any" then do
      let (least, most) ← occurs location c
      let more ← particles setting location rest
      return ⟨least, most, .any⟩ :: more
    else do
      note setting location ("xs:" ++ c.name ++ " in model group")
      particles setting location rest

/-- A local element or a reference to a global one. -/
def elementParticle (setting : Setting) (location : String) : Construct → Reading Particle
  | c@(.mk _ _ _ _ children) => do
    let (least, most) ← occurs location c
    match ← name? c "ref" with
    | some name => return ⟨least, most, .elementRef name⟩
    | none => do
      let name ← required location c "name"
      let qualified := isQualified c setting.elementForm
      let location := location ++ "/element " ++ name
      let named ← namedType c
      let type ← elementType setting location named children
      let element ← elementOf setting (setting.localName name qualified) qualified location c type
      return ⟨least, most, .element element⟩

/-- The type of an element, read from its children; the last one counts. -/
def elementType (setting : Setting) (location : String) (type : ElementType) :
    List Construct → Reading ElementType
  | [] => pure type
  | c@(.mk _ _ _ _ children) :: rest =>
    if c.name = "simpleType" then do
      let simple ← simpleType setting location children
      elementType setting location (.simple simple) rest
    else if c.name = "complexType" then do
      let (uses, any) ← attributeUses setting location children
      let complex ← complexParts setting location
        ⟨.empty, uses, any, c.attribute? "mixed" == some "true"⟩ children
      elementType setting location (.complex complex) rest
    else do
      let constraint := c.name == "key" || c.name == "keyref" || c.name == "unique"
      note setting location (if constraint then "identity constraint xs:" ++ c.name
        else "xs:" ++ c.name ++ " in element")
      elementType setting location type rest

end

/-- A complex type. -/
def complexType (setting : Setting) (location : String) (c : Construct) : Reading ComplexType := do
  let (uses, any) ← attributeUses setting location c.children
  complexParts setting location ⟨.empty, uses, any, c.attribute? "mixed" == some "true"⟩ c.children

/-- A global element. -/
def globalElement (setting : Setting) (name location : String) (c : Construct) :
    Reading Element := do
  let named ← namedType c
  let type ← elementType setting location named c.children
  elementOf setting (setting.global name) true location c type

/-! ### Documents -/

/-- Works a top-level construct into the schema read so far. -/
def topLevel (setting : Setting) (schema : Schema) (c : Construct) : Reading Schema := do
  let location := c.attribute? "schemaLocation"
  let included : Import := ⟨.included, setting.targetSpace, location⟩
  if c.name = "import" then
    let imported : Import := ⟨.imported, (c.attribute? "namespace").getD "", location⟩
    return { schema with imports := schema.imports ++ [imported] }
  else if c.name = "include" then
    return { schema with imports := schema.imports ++ [included] }
  else if c.name = "redefine" ∨ c.name = "override" then
    note setting "schema" ("xs:" ++ c.name)
    return { schema with imports := schema.imports ++ [included] }
  else if c.name = "simpleType" then
    let name ← required "schema" c "name"
    let type ← simpleType setting ("simpleType " ++ name) c.children
    let named : NamedType := ⟨setting.global name, .simple type, c.documentation⟩
    return { schema with types := schema.types ++ [named] }
  else if c.name = "complexType" then
    let name ← required "schema" c "name"
    let type ← complexType setting ("complexType " ++ name) c
    let named : NamedType := ⟨setting.global name, .complex type, c.documentation⟩
    return { schema with types := schema.types ++ [named] }
  else if c.name = "element" then
    let name ← required "schema" c "name"
    let element ← globalElement setting name ("element " ++ name) c
    return { schema with elements := schema.elements ++ [element] }
  else if c.name = "group" then
    let name ← required "schema" c "name"
    let location := "group " ++ name
    match c.children.find? Construct.isGroup with
    | none => malformed (location ++ ": group without a compositor")
    | some inner => do
      let particles ← particles setting (location ++ "/" ++ inner.name) inner.children
      let group : NamedGroup :=
        ⟨setting.global name, ⟨compositorOf inner.name, particles⟩, c.documentation⟩
      return { schema with groups := schema.groups ++ [group] }
  else if c.name = "attribute" then
    let name ← required "schema" c "name"
    let declaration ← attributeOf setting (setting.global name) true ("attribute " ++ name) c
    return { schema with attributes := schema.attributes ++ [declaration] }
  else if c.name = "attributeGroup" then
    let name ← required "schema" c "name"
    let (uses, any) ← attributeUses setting ("attributeGroup " ++ name) c.children
    let group : AttributeGroup := ⟨setting.global name, uses, any⟩
    return { schema with attributeGroups := schema.attributeGroups ++ [group] }
  else
    note setting "schema" ("xs:" ++ c.name)
    return schema

/-- Works top-level constructs in one after the other. -/
def topLevels (setting : Setting) (schema : Schema) : List Construct → Reading Schema
  | [] => pure schema
  | c :: rest => do
    let schema ← topLevel setting schema c
    topLevels setting schema rest

/-- What the root of a document settles for all of it. -/
def Setting.ofRoot (filename : String) (root : Construct) : Setting where
  filename
  targetSpace := (root.attribute? "targetNamespace").getD ""
  elementForm := Form.ofText (root.attribute? "elementFormDefault") .unqualified
  attributeForm := Form.ofText (root.attribute? "attributeFormDefault") .unqualified

/-- The schema of a root before its declarations are read. -/
def ofRoot (setting : Setting) (root : Construct) : Schema where
  targetSpace := setting.targetSpace
  elementForm := setting.elementForm
  attributeForm := setting.attributeForm
  prefixes := root.bindings
  imports := []
  documentation := root.documentation
  types := []
  elements := []
  groups := []
  attributes := []
  attributeGroups := []

/-- The reason for a text that is not well-formed XML. -/
def notXml : String := "XML: the text is not well-formed"

/-- Reads the text of a file: the schema and what was passed over, or the one problem of a
malformed file. Blanks before the document do not count. -/
def ofText (filename text : String) : Except Problem (Schema × List Problem) :=
  match Xml.Element.ofText? (Text.trimStart text) with
  | none => .error (.malformed filename notXml)
  | some root =>
    if root.isNamed QName.xsdSpace "schema" then
      let root := Construct.ofXml root
      let setting := Setting.ofRoot filename root
      match topLevels setting (ofRoot setting root) root.children [] with
      | .ok result => .ok result
      | .error reason => .error (.malformed filename reason)
    else
      .error (.malformed filename ("root element must be xs:schema, found '" ++ root.name ++ "'"))

end Schema

end Crosswalk
