/-!
# Qualified names

A qualified name identifies a declaration across the documents of a batch. Prefixes are no part
of it: two references with different prefixes for one namespace are the same name. The empty
namespace stands for none.
-/

namespace Crosswalk

/-- A name within a namespace. -/
structure QName where
  space : String
  name : String
  deriving DecidableEq, Repr

namespace QName

/-- The namespace of XML Schema itself. -/
def xsdSpace : String := "http://www.w3.org/2001/XMLSchema"

/-- A name of XML Schema itself. -/
def xsd (name : String) : QName := ⟨xsdSpace, name⟩

/-- Whether the name belongs to XML Schema itself. -/
def isBuiltin (q : QName) : Bool := q.space == xsdSpace

/-- Whether the name is in no namespace. -/
def isUnqualified (q : QName) : Bool := q.space == ""

/-- The text of a name in messages: the namespace in braces, unless there is none. -/
def text (q : QName) : String :=
  if q.isUnqualified then q.name else "\x7b" ++ q.space ++ "\x7d" ++ q.name

/-- Names are in order of namespace, and within one namespace in order of their local part. -/
instance : LT QName where
  lt p q := p.space < q.space ∨ (p.space = q.space ∧ p.name < q.name)

instance : DecidableLT QName := fun p q =>
  inferInstanceAs (Decidable (p.space < q.space ∨ (p.space = q.space ∧ p.name < q.name)))

theorem lt_def (p q : QName) :
    p < q ↔ p.space < q.space ∨ (p.space = q.space ∧ p.name < q.name) := Iff.rfl

/-- Puts a name before the first one that is greater. -/
def insertSorted (q : QName) : List QName → List QName
  | [] => [q]
  | p :: rest => if q < p then q :: p :: rest else p :: insertSorted q rest

/-- The names in order; repeated ones stay. -/
def sorted (names : List QName) : List QName :=
  names.foldl (fun sorted q => insertSorted q sorted) []

end QName

end Crosswalk
