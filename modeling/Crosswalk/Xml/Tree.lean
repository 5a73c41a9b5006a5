import Crosswalk.Xml.Event

/-!
# The tree of an XML document

`Element.ofText?` reads a document as the tree of its elements, with prefixes replaced by the
namespaces they stand for. What remains of a prefix are the bindings in scope at an element, for
texts that hold qualified names. A document whose tags do not match, or with a prefix that is not
bound, has no tree.
-/

namespace Crosswalk

namespace Xml

/-- An attribute; one without prefix is in no namespace, whatever the default is. -/
structure Attribute where
  space : Option String
  name : String
  value : String
  deriving DecidableEq, Repr

mutual

/-- An element with everything in it. -/
structure Element where
  /-- The namespace, empty for none. -/
  space : String
  name : String
  attributes : List Attribute
  /-- The bindings in scope, its own before those around it; the default namespace has the empty
  prefix. -/
  bindings : List (String × String)
  children : List Node

/-- A child of an element. -/
inductive Node where
  | element (element : Element)
  | text (data : String)

end

/-- The namespace of the prefix `xml`. -/
def xmlSpace : String := "http://www.w3.org/XML/1998/namespace"

/-- The namespace of the prefix `xmlns`. -/
def xmlnsSpace : String := "http://www.w3.org/2000/xmlns/"

/-- The bindings that attributes declare, in order. Neither reserved namespace may be bound, but
the prefix `xml` to its own, which adds nothing; and no prefix is declared twice. The name `xmlns`
declares the default namespace, whatever prefix it has itself. -/
def declared? : List (String × String) → List (Tag × String) → Option (List (String × String))
  | read, [] => some read.reverse
  | read, (tag, value) :: rest =>
    if tag.tagPrefix = "xmlns" then
      if value = xmlnsSpace ∨ (tag.name == "xml") != (value == xmlSpace) then none
      else if read.any fun b => b.1 == tag.name then none
      else if value = xmlSpace then declared? read rest
      else declared? ((tag.name, value) :: read) rest
    else if tag.name = "xmlns" then
      if value = xmlSpace ∨ value = xmlnsSpace then none
      else declared? (("", value) :: read) rest
    else declared? read rest

/-- Bindings with those around them that they do not replace. -/
def withOuter (own outer : List (String × String)) : List (String × String) :=
  own ++ outer.filter fun b => !own.any fun o => o.1 == b.1

/-- Whether an attribute declares a binding. -/
def isDeclaration (tag : Tag) : Bool := tag.tagPrefix == "xmlns" || tag.name == "xmlns"

/-- The namespace that a prefix other than the empty one stands for. -/
def spaceOf? (bindings : List (String × String)) (tagPrefix : String) : Option String :=
  if tagPrefix = "xml" then some xmlSpace else bindings.lookup tagPrefix

/-- The attributes that declare no binding, with their namespaces; no two have the same name. -/
def resolved? (bindings : List (String × String)) :
    List Attribute → List (Tag × String) → Option (List Attribute)
  | read, [] => some read.reverse
  | read, (tag, value) :: rest =>
    if isDeclaration tag then resolved? bindings read rest
    else do
      let space ← if tag.tagPrefix = "" then some none
        else (spaceOf? bindings tag.tagPrefix).map some
      if read.any fun a => a.space == space && a.name == tag.name then none
      resolved? bindings (⟨space, tag.name, value⟩ :: read) rest

/-- An element whose end tag is still to come. -/
structure Open where
  tag : Tag
  space : String
  attributes : List Attribute
  bindings : List (String × String)
  /-- The children so far, last first. -/
  children : List Node

/-- The element of a start tag, within the bindings around it. -/
def Open.ofStart? (outer : List (String × String)) (tag : Tag) (attributes : List (Tag × String)) :
    Option Open := do
  let own ← declared? [] attributes
  let bindings := withOuter own outer
  if tag.tagPrefix = "xmlns" then none
  let space ← if tag.tagPrefix = "" then some ((bindings.lookup "").getD "")
    else spaceOf? bindings tag.tagPrefix
  let attributes ← resolved? bindings [] attributes
  return ⟨tag, space, attributes, bindings, []⟩

/-- The element when its end tag has come. -/
def Open.close (o : Open) : Element :=
  ⟨o.space, o.tag.name, o.attributes, o.bindings, o.children.reverse⟩

def Open.add (o : Open) (child : Node) : Open := { o with children := child :: o.children }

/-- The root element that events describe, with the open elements inside out. Events that leave
elements open, go on behind the root or have text outside of it describe none. -/
def root? : List Open → List Event → Option Element
  | _, [] => none
  | opened, .start tag attributes :: rest => do
    let outer := match opened with
      | o :: _ => o.bindings
      | [] => []
    let o ← Open.ofStart? outer tag attributes
    root? (o :: opened) rest
  | [], .stop _ :: _ => none
  | [], .text _ :: _ => none
  | o :: opened, .stop tag :: rest =>
    if o.tag = tag then
      match opened with
      | [] => if rest.isEmpty then some o.close else none
      | p :: outer => root? (p.add (.element o.close) :: outer) rest
    else none
  | o :: opened, .text data :: rest => root? (o.add (.text data) :: opened) rest

namespace Element

/-- The root element of a document. -/
def ofText? (text : String) : Option Element := (events? text).bind (root? [])

/-- The value of an attribute in no namespace. -/
def attribute? (e : Element) (name : String) : Option String :=
  (e.attributes.find? fun a => a.space == none && a.name == name).map (·.value)

/-- Whether the element has this name in this namespace. -/
def isNamed (e : Element) (space name : String) : Bool := e.space == space && e.name == name

/-- The children that are elements. -/
def elements (e : Element) : List Element :=
  e.children.filterMap fun
    | .element child => some child
    | .text _ => none

end Element

mutual

/-- The character data in an element, at any depth. -/
def Element.characters : Element → String
  | ⟨_, _, _, _, children⟩ => charactersOf children

/-- The character data of a child. -/
def Node.characters : Node → String
  | .element e => e.characters
  | .text data => data

/-- The character data of children in turn. -/
def charactersOf : List Node → String
  | [] => ""
  | n :: rest => n.characters ++ charactersOf rest

end

end Xml

end Crosswalk
