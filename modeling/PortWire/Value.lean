/-!
# Values

What unpacking port data yields: scalars at the leaves, arrays and records above them. Integers of
up to 32 bits are widened to 32. A record keeps its fields in the order in which their names first
came, and a name that comes again replaces the value in its place.
-/

namespace PortWire

inductive Scalar
  | u32 (n : UInt32)
  | i32 (n : Int32)
  | u64 (n : UInt64)
  | i64 (n : Int64)
  | bool (b : Bool)
  | str (s : String)
  | bytes (bs : List UInt8)
  deriving DecidableEq, Repr

inductive Value
  | scalar (s : Scalar)
  | array (items : List Value)
  | record (fields : List (String × Value))
  deriving Repr

/-- Fields of a record in order. -/
abbrev Fields := List (String × Value)

namespace Fields

def insert (key : String) (v : Value) : Fields → Fields
  | [] => [(key, v)]
  | (k, w) :: rest => if k = key then (k, v) :: rest else (k, w) :: insert key v rest

def find? (key : String) (fields : Fields) : Option Value :=
  fields.lookup key

end Fields

namespace Value

def emptyRecord : Value := .record []

def kind : Value → String
  | .scalar (.u32 _) => "u32"
  | .scalar (.i32 _) => "i32"
  | .scalar (.u64 _) => "u64"
  | .scalar (.i64 _) => "i64"
  | .scalar (.bool _) => "bool"
  | .scalar (.str _) => "str"
  | .scalar (.bytes _) => "bytes"
  | .array _ => "array"
  | .record _ => "record"

def u32? : Value → Option UInt32
  | .scalar (.u32 n) => some n
  | _ => none

def i32? : Value → Option Int32
  | .scalar (.i32 n) => some n
  | _ => none

def u64? : Value → Option UInt64
  | .scalar (.u64 n) => some n
  | _ => none

def i64? : Value → Option Int64
  | .scalar (.i64 n) => some n
  | _ => none

def bool? : Value → Option Bool
  | .scalar (.bool b) => some b
  | _ => none

def str? : Value → Option String
  | .scalar (.str s) => some s
  | _ => none

def bytes? : Value → Option (List UInt8)
  | .scalar (.bytes bs) => some bs
  | _ => none

def items? : Value → Option (List Value)
  | .array items => some items
  | _ => none

def fields? : Value → Option Fields
  | .record fields => some fields
  | _ => none

/-- The field of that name, in a record that has it. -/
def get? (v : Value) (key : String) : Option Value :=
  v.fields?.bind (Fields.find? key)

/-- Items of an array, fields of a record, characters of a string, or bytes. -/
def length? : Value → Option Nat
  | .array items => some items.length
  | .record fields => some fields.length
  | .scalar (.str s) => some s.length
  | .scalar (.bytes bs) => some bs.length
  | _ => none

def isEmpty? (v : Value) : Option Bool :=
  v.length?.map fun n => n = 0

end Value

end PortWire
