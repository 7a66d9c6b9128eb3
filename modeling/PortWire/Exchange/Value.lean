import PortWire.Exchange.Form
import PortWire.Value

/-!
# Documents of values

Values and scalars are tagged with the name of their case. The fields of a record are the members of
an object, in order.
-/

namespace PortWire

inductive ScalarType
  | u32 | i32 | u64 | i64 | bool | str | bytes
  deriving DecidableEq, Repr

instance : Named ScalarType where
  all := [.u32, .i32, .u64, .i64, .bool, .str, .bytes]
  name
    | .u32 => "U32"
    | .i32 => "I32"
    | .u64 => "U64"
    | .i64 => "I64"
    | .bool => "Bool"
    | .str => "Str"
    | .bytes => "Bytes"

inductive ValueType
  | scalar | array | record
  deriving DecidableEq, Repr

instance : Named ValueType where
  all := [.scalar, .array, .record]
  name
    | .scalar => "Scalar"
    | .array => "Array"
    | .record => "Record"

namespace Scalar

def type : Scalar → ScalarType
  | .u32 _ => .u32
  | .i32 _ => .i32
  | .u64 _ => .u64
  | .i64 _ => .i64
  | .bool _ => .bool
  | .str _ => .str
  | .bytes _ => .bytes

variable (C : Codec)

def content : Scalar → Document
  | .u32 n => C.write n
  | .i32 n => C.write n
  | .u64 n => C.write n
  | .i64 n => C.write n
  | .bool b => C.write b
  | .str s => C.write s
  | .bytes bs => C.write bs

def ofContent? (d : C.Part) : ScalarType → Option Scalar
  | .u32 => (C.read? d).map .u32
  | .i32 => (C.read? d).map .i32
  | .u64 => (C.read? d).map .u64
  | .i64 => (C.read? d).map .i64
  | .bool => (C.read? d).map .bool
  | .str => (C.read? d).map .str
  | .bytes => (C.read? d).map .bytes

end Scalar

instance {C : Codec} : Form C Scalar where
  write s := C.ofCase s.type (s.content C)
  read? d := (C.case? ScalarType d).bind fun (type, content) => Scalar.ofContent? C content.val type

namespace Fields

/-- A name that comes again keeps its first place and takes the last value. -/
def ofList (fields : List (String × Value)) : Fields :=
  fields.foldl (fun known (key, v) => Fields.insert key v known) []

end Fields

namespace Value

variable (C : Codec)

mutual

def write : Value → Document
  | .scalar s => C.ofCase ValueType.scalar (C.write s)
  | .array items => C.ofCase ValueType.array (.list (writeItems items))
  | .record fields => C.ofCase ValueType.record (.object (writeFields fields))

def writeItems : List Value → List Document
  | [] => []
  | v :: rest => v.write :: writeItems rest

def writeFields : List (String × Value) → List (String × Document)
  | [] => []
  | (key, v) :: rest => (key, v.write) :: writeFields rest

end

/-- The content of a value lies deeper than the value, and its items lie deeper still. -/
def read? (d : C.Part) : Option Value :=
  match C.case? ValueType d with
  | none => none
  | some (.scalar, content) => (C.read? content.val).map .scalar
  | some (.array, content) =>
    (C.items? content.val).bind fun items =>
      (items.mapM fun item => read? item.val).map .array
  | some (.record, content) =>
    (C.members? content.val).bind fun members =>
      (members.mapM fun m => (read? m.2.val).map fun v => (m.1, v)).map fun fields =>
        .record (Fields.ofList fields)
  termination_by C.room d
  decreasing_by
    · exact Nat.lt_trans item.property content.property
    · exact Nat.lt_trans m.2.property content.property

end Value

instance {C : Codec} : Form C Value where
  write := Value.write C
  read? := Value.read? C

end PortWire
