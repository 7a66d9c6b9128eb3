import PortWire.Codec
import PortWire.Named

/-!
# Forms of values in documents

How a type is written as a document and read from what a codec has parsed. Structures, choices and
tagged values are left to the codec; a structure says which fields it has, and which of them may be
absent.
-/

namespace PortWire

class Form (C : Codec) (α : Type) where
  write : α → Document
  read? : C.Part → Option α

namespace Codec

variable (C : Codec) {α : Type}

def write [Form C α] (a : α) : Document :=
  Form.write C a

def read? [Form C α] (d : C.Part) : Option α :=
  Form.read? d

def encode? [Form C α] (a : α) : Option String :=
  C.render? (C.write a)

def decode? [Form C α] (s : String) : Option α :=
  (C.parse? s).bind C.read?

/-- Reads a text as a value of the type and writes that value again. -/
def normalize? (α : Type) [Form C α] (s : String) : Option String :=
  (C.decode? s : Option α).bind C.encode?

/-! ## Fields -/

def required? [Form C α] : Option C.Part → Option α
  | some d => C.read? d
  | none => none

def orElse? [Form C α] (fallback : α) : Option C.Part → Option α
  | some d => C.read? d
  | none => some fallback

/-! ## Numbers -/

/-- An integer from `low` up to and including `high`. -/
def intWithin? (low high : Int) (d : C.Part) : Option Int :=
  (C.int? d).bind fun n => if low ≤ n ∧ n ≤ high then some n else none

/-- An integer that fits an unsigned word of `bits` bits. -/
def word? (bits : Nat) (d : C.Part) : Option Nat :=
  (C.intWithin? 0 ((1 <<< bits : Nat) - 1) d).map Int.toNat

/-! ## Tagged values -/

def tagKey : String := "type"
def contentKey : String := "value"

def ofCase [Named α] (a : α) (content : Document) : Document :=
  C.ofTagged tagKey contentKey (Named.name a) content

/-- The case of a tagged value, and its content. -/
def case? (α : Type) [Named α] (d : C.Part) :
    Option (α × {x : C.Part // C.room x < C.room d}) :=
  (C.tagged? tagKey contentKey (Named.names α) d).bind fun (tag, content) =>
    (Named.ofName? tag).map fun a => (a, content)

end Codec

variable {C : Codec} {α : Type}

instance : Form C Bool where
  write := .bool
  read? := C.bool?

instance : Form C String where
  write := .text
  read? := C.text?

instance : Form C UInt8 where
  write n := .number (.ofUInt64 n.toUInt64)
  read? d := (C.word? 8 d).map UInt8.ofNat

instance : Form C UInt16 where
  write n := .number (.ofUInt64 n.toUInt64)
  read? d := (C.word? 16 d).map UInt16.ofNat

instance : Form C UInt32 where
  write n := .number (.ofUInt64 n.toUInt64)
  read? d := (C.word? 32 d).map UInt32.ofNat

instance : Form C UInt64 where
  write n := .number (.ofUInt64 n)
  read? d := (C.word? 64 d).map UInt64.ofNat

instance : Form C Int32 where
  write n := .number (.ofInt64 n.toInt64)
  read? d := (C.intWithin? Int32.minValue.toInt Int32.maxValue.toInt d).map Int32.ofInt

instance : Form C Int64 where
  write n := .number (.ofInt64 n)
  read? d := (C.intWithin? Int64.minValue.toInt Int64.maxValue.toInt d).map Int64.ofInt

instance [Named α] : Form C α where
  write a := C.ofChoice (Named.name a)
  read? d := (C.choice? (Named.names α) d).bind Named.ofName?

instance [Form C α] : Form C (List α) where
  write xs := .list (xs.map C.write)
  read? d := (C.items? d).bind fun items => items.mapM fun x => C.read? x.val

instance [Form C α] : Form C (Option α) where
  write
    | none => .null
    | some a => C.write a
  read? d := if C.isNull d then some none else (C.read? d).map some

end PortWire
