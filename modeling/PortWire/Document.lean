/-!
# Documents

What a value is written as. Numbers are the integers that fit a word of 64 bits, and the members of
an object have an order.
-/

namespace PortWire

/-- An integer that fits a word of 64 bits, with a sign or without one. -/
structure Document.Number where
  value : Int
  low : Int64.minValue.toInt ≤ value
  high : value < UInt64.size
  deriving DecidableEq

inductive Document
  | null
  | bool (b : Bool)
  | number (n : Document.Number)
  | text (s : String)
  | list (items : List Document)
  | object (members : List (String × Document))

namespace Document

namespace Number

def ofUInt64 (n : UInt64) : Number where
  value := n.toNat
  low := Int.le_trans (by decide) (Int.natCast_nonneg n.toNat)
  high := Int.ofNat_lt.mpr n.toNat_lt

def ofInt64 (n : Int64) : Number where
  value := n.toInt
  low := n.minValue_le_toInt
  high := Int.lt_of_le_of_lt n.toInt_le (by decide)

end Number

mutual

/-- How many lists and objects stand inside one another, the outermost one included. -/
def depth : Document → Nat
  | .list items => itemsDepth items + 1
  | .object members => membersDepth members + 1
  | _ => 0

def itemsDepth : List Document → Nat
  | [] => 0
  | t :: rest => max t.depth (itemsDepth rest)

def membersDepth : List (String × Document) → Nat
  | [] => 0
  | (_, t) :: rest => max t.depth (membersDepth rest)

end

/-- The document is an object of just these members, in some order. -/
def Gives (t : Document) (fields : List (String × Document)) : Prop :=
  ∃ members, t = .object members ∧ members.Perm fields

end Document

end PortWire
