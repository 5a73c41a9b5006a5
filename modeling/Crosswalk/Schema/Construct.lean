import Crosswalk.Problem
import Crosswalk.Xml.Tree

/-!
# Constructs

A schema document as the tree of its constructs: the elements of the XML Schema namespace, with
annotations taken out of the tree and read as documentation. Elements of other namespaces and
character data between elements mean nothing in a schema.
-/

namespace Crosswalk

/-- An element of the XML Schema namespace. -/
inductive Construct where
  | mk (name : String) (attributes : List Xml.Attribute) (bindings : List (String × String))
      (documentation : Option String) (children : List Construct)

namespace Construct

def name : Construct → String
  | mk name _ _ _ _ => name

def attributes : Construct → List Xml.Attribute
  | mk _ attributes _ _ _ => attributes

/-- The namespace bindings in scope. -/
def bindings : Construct → List (String × String)
  | mk _ _ bindings _ _ => bindings

/-- The text of its annotations. -/
def documentation : Construct → Option String
  | mk _ _ _ documentation _ => documentation

/-- The constructs directly in it, annotations excepted. -/
def children : Construct → List Construct
  | mk _ _ _ _ children => children

/-- The value of an attribute in no namespace. -/
def attribute? (c : Construct) (name : String) : Option String :=
  (c.attributes.find? fun a => a.space == none && a.name == name).map (·.value)

/-- The texts of the documentation in an annotation, without blanks around them. -/
def documentationIn (remark : Xml.Element) : List String :=
  (remark.elements.filter fun e => e.isNamed QName.xsdSpace "documentation").map fun e =>
    Text.trim e.characters

/-- The documentation texts of some children, a line for each that is not empty. -/
def documentationOf (children : List Xml.Node) : Option String :=
  let texts := children.flatMap fun
    | .element e => if e.isNamed QName.xsdSpace "annotation" then documentationIn e else []
    | .text _ => []
  match texts.filter (· ≠ "") with
  | [] => none
  | t :: rest => some (Text.join "\n" (t :: rest))

mutual

/-- The construct of an XML element. -/
def ofXml : Xml.Element → Construct
  | ⟨_, name, attributes, bindings, children⟩ =>
    mk name attributes bindings (documentationOf children) (ofNodes children)

/-- The constructs among some children. -/
def ofNodes : List Xml.Node → List Construct
  | [] => []
  | .element e :: rest =>
    if e.space = QName.xsdSpace ∧ e.name ≠ "annotation" then ofXml e :: ofNodes rest
    else ofNodes rest
  | .text _ :: rest => ofNodes rest

end

/-- Whether a construct is a model group. -/
def isGroup (c : Construct) : Bool := c.name == "sequence" || c.name == "choice" || c.name == "all"

/-- Whether a construct concerns attributes. -/
def concernsAttributes (c : Construct) : Bool :=
  c.name == "attribute" || c.name == "attributeGroup" || c.name == "anyAttribute"

/-- The prefix before the first colon and what follows it, if there is a colon. -/
def splitPrefix? (text : String) : Option (String × String) :=
  match text.toList.dropWhile (· != ':') with
  | _ :: rest => some (String.ofList (text.toList.takeWhile (· != ':')), String.ofList rest)
  | [] => none

/-- The name that a text denotes where bindings are in scope. Without a prefix it is in the default
namespace. The error is the reason that there is none. -/
def resolve (bindings : List (String × String)) (text : String) : Except String QName :=
  let text := Text.trim text
  match splitPrefix? text with
  | none => .ok ⟨(bindings.lookup "").getD "", text⟩
  | some (p, name) =>
    match if p = "" then none else bindings.lookup p with
    | some space => .ok ⟨space, name⟩
    | none => .error ("undeclared prefix '" ++ p ++ "' in '" ++ text ++ "'")

end Construct

end Crosswalk
