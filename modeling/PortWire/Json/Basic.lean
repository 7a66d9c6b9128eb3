import PortWire.Json.Numeral
import PortWire.Json.Text

/-!
# Documents as they are spelled

The tree of a text: members of objects stay in order and may share a name, and numbers and strings
keep their spelling. What of this is an error depends on what is to be read from it.
-/

namespace PortWire

inductive Json
  | null
  | bool (b : Bool)
  | number (n : Json.Numeral)
  | text (t : Json.Text)
  | list (items : List Json)
  | object (members : List (Json.Text × Json))
  deriving Repr

namespace Json

def string? : Json → Option String
  | .text t => t.string?
  | _ => none

def bool? : Json → Option Bool
  | .bool b => some b
  | _ => none

def int? : Json → Option Int
  | .number n => n.int?
  | _ => none

mutual

/-- Every string has a text and every number is finite, so that the document can be kept for later
without knowing what is to be read from it. -/
def isHoldable : Json → Bool
  | .null => true
  | .bool _ => true
  | .number n => n.isFinite
  | .text t => t.string?.isSome
  | .list items => areHoldable items
  | .object members => areMembersHoldable members

def areHoldable : List Json → Bool
  | [] => true
  | j :: rest => j.isHoldable && areHoldable rest

def areMembersHoldable : List (Json.Text × Json) → Bool
  | [] => true
  | (k, j) :: rest => k.string?.isSome && j.isHoldable && areMembersHoldable rest

end

mutual

/-- How many lists and objects stand inside one another. -/
def depth : Json → Nat
  | .list items => itemsDepth items + 1
  | .object members => membersDepth members + 1
  | _ => 0

def itemsDepth : List Json → Nat
  | [] => 0
  | j :: rest => max j.depth (itemsDepth rest)

def membersDepth : List (Json.Text × Json) → Nat
  | [] => 0
  | (_, j) :: rest => max j.depth (membersDepth rest)

end

end Json

end PortWire
