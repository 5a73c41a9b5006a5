import Crosswalk.Table
import Crosswalk.Number.Double

/-!
# JSON values

A number is an integer or a binary floating-point number, and the two are kept apart: `1` and
`1.0` are written differently, and `Json.same` is the coarser equality that compares them by
value. The members of an object are a table in order of key.
-/

namespace Crosswalk

/-- A JSON number. -/
inductive Number where
  | int (value : Int)
  | float (value : Double)
  deriving DecidableEq, Repr

namespace Number

/-- The order of the exact values. -/
def compare : Number → Number → Ordering
  | .int m, .int n => Ord.compare m n
  | .int m, .float y => (y.compareInt m).swap
  | .float x, .int n => x.compareInt n
  | .float x, .float y => x.compare y

/-- Whether two numbers have the same value. -/
def same (a b : Number) : Bool := a.compare b == .eq

/-- Whether two numbers have the same value and are of the same kind. -/
def alike : Number → Number → Bool
  | .int m, .int n => m == n
  | .float x, .float y => x.compare y == .eq
  | _, _ => false

/-- Whether the value is a whole number, however it is written. -/
def isWhole : Number → Bool
  | .int _ => true
  | .float x => x.isWhole

end Number

/-- A JSON value. -/
inductive Json where
  | null
  | bool (value : Bool)
  | number (value : Number)
  | string (value : String)
  | array (items : List Json)
  | object (fields : List (String × Json))
  deriving Repr

instance : Inhabited Json := ⟨.null⟩

namespace Json

/-- A whole number. -/
def int (n : Int) : Json := .number (.int n)

/-- A natural number. -/
def nat (n : Nat) : Json := .number (.int n)

/-- The object with these members; the last of two with one name counts. -/
def ofFields (fields : List (String × Json)) : Json := .object (Table.ofList fields)

/-- An array of strings. -/
def strings (items : List String) : Json := .array (items.map .string)

/-- The members of an object. -/
def fields? : Json → Option (Table String Json)
  | .object fields => some fields
  | _ => none

/-- The member of an object with this name. -/
def field? : Json → String → Option Json
  | .object fields, name => Table.find? fields name
  | _, _ => none

def string? : Json → Option String
  | .string s => some s
  | _ => none

def bool? : Json → Option Bool
  | .bool b => some b
  | _ => none

def array? : Json → Option (List Json)
  | .array items => some items
  | _ => none

def int? : Json → Option Int
  | .number (.int n) => some n
  | _ => none

@[simp] theorem field?_object (fields : List (String × Json)) (name : String) :
    (Json.object fields).field? name = Table.find? fields name := rfl

/-- Whether two values agree up to `numbers`: arrays item by item, and objects as tables. -/
def agree (numbers : Number → Number → Bool) : Json → Json → Bool
  | .null, .null => true
  | .bool a, .bool b => a == b
  | .number a, .number b => numbers a b
  | .string a, .string b => a == b
  | .array a, .array b => agreeItems a b
  | .object a, .object b => agreeFields a b
  | _, _ => false
where
  agreeItems : List Json → List Json → Bool
    | [], [] => true
    | a :: as, b :: bs => agree numbers a b && agreeItems as bs
    | _, _ => false
  agreeFields : List (String × Json) → List (String × Json) → Bool
    | [], [] => true
    | (k, a) :: as, (l, b) :: bs => k == l && agree numbers a b && agreeFields as bs
    | _, _ => false

/-- How many values there are in a value, itself included. -/
def size : Json → Nat
  | .array items => sizeItems items + 1
  | .object fields => sizeFields fields + 1
  | _ => 1
where
  sizeItems : List Json → Nat
    | [] => 0
    | a :: rest => size a + sizeItems rest
  sizeFields : List (String × Json) → Nat
    | [] => 0
    | (_, a) :: rest => size a + sizeFields rest

/-- Equality of values, in which `1` and `1.0` are the same. -/
def same : Json → Json → Bool := agree Number.same

/-- Equality as written, in which `1` and `1.0` differ. -/
def alike : Json → Json → Bool := agree Number.alike

end Json

end Crosswalk
