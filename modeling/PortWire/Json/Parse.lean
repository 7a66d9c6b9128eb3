import PortWire.Json.Basic
import PortWire.Json.Token

/-!
# Reading documents

The tree is put together token by token. The lists and objects that are still open wait on a stack,
innermost first; what they have gathered is held last one first.
-/

namespace PortWire.Json

inductive Open
  | list (items : List Json)
  /-- An object in which the value of `key` is due. -/
  | member (members : List (Text × Json)) (key : Text)
  deriving Repr

/-- What may come next. -/
inductive Due
  | value
  /-- The first item of a list, or its end. -/
  | firstItem
  /-- The first name of an object, or its end. -/
  | firstKey
  | key (members : List (Text × Json))
  | colon (members : List (Text × Json)) (key : Text)
  /-- A value has just ended. -/
  | behind (j : Json)
  deriving Repr

structure Assembly where
  stack : List Open
  due : Due
  deriving Repr

namespace Assembly

def initial : Assembly := ⟨[], .value⟩

/-- A token where a value is due. -/
def value (stack : List Open) : Token → Option Assembly
  | .listOpen => some ⟨stack, .firstItem⟩
  | .objectOpen => some ⟨stack, .firstKey⟩
  | .null => some ⟨stack, .behind .null⟩
  | .bool b => some ⟨stack, .behind (.bool b)⟩
  | .number n => some ⟨stack, .behind (.number n)⟩
  | .text t => some ⟨stack, .behind (.text t)⟩
  | _ => none

/-- A token behind the value `j`. -/
def behind (j : Json) : List Open → Token → Option Assembly
  | .list items :: stack, .comma => some ⟨.list (j :: items) :: stack, .value⟩
  | .list items :: stack, .listClose => some ⟨stack, .behind (.list (j :: items).reverse)⟩
  | .member members key :: stack, .comma => some ⟨stack, .key ((key, j) :: members)⟩
  | .member members key :: stack, .objectClose =>
    some ⟨stack, .behind (.object ((key, j) :: members).reverse)⟩
  | _, _ => none

def step (a : Assembly) (t : Token) : Option Assembly :=
  match a.due, t with
  | .value, t => value a.stack t
  | .firstItem, .listClose => some ⟨a.stack, .behind (.list [])⟩
  | .firstItem, t => value (.list [] :: a.stack) t
  | .firstKey, .objectClose => some ⟨a.stack, .behind (.object [])⟩
  | .firstKey, .text key => some ⟨a.stack, .colon [] key⟩
  | .key members, .text key => some ⟨a.stack, .colon members key⟩
  | .colon members key, .colon => some ⟨.member members key :: a.stack, .value⟩
  | .behind j, t => behind j a.stack t
  | _, _ => none

def run : Assembly → List Token → Option Assembly
  | a, [] => some a
  | a, t :: ts =>
    match a.step t with
    | none => none
    | some a => run a ts

/-- The document, if nothing is open and nothing is due. -/
def finish? (a : Assembly) : Option Json :=
  match a.stack, a.due with
  | [], .behind j => some j
  | _, _ => none

end Assembly

def ofTokens? (ts : List Token) : Option Json :=
  (Assembly.initial.run ts).bind Assembly.finish?

/-- The document that a text consists of. -/
def parse? (s : String) : Option Json :=
  (Token.ofChars? s.toList).bind ofTokens?

end PortWire.Json
