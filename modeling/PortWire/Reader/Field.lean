import PortWire.Reader.Source
import PortWire.Reader.Text
import PortWire.Value

/-!
# Fields of port data

How the value of a single field is read: a primitive on its own or an array of primitives, a text,
or plain bytes. The bound of an array without a length in the data is the length itself.
-/

namespace PortWire

inductive Primitive
  | u8 | u16 | u32 | u64 | s8 | s16 | s32 | s64 | bool
  deriving DecidableEq, Repr

namespace Primitive

def size : Primitive → Nat
  | .u8 | .s8 | .bool => 1
  | .u16 | .s16 => 2
  | .u32 | .s32 => 4
  | .u64 | .s64 => 8

/-- The scalar that the little-endian word `n` of this type stands for. -/
def ofWord (p : Primitive) (n : Nat) : Scalar :=
  match p with
  | .u8 | .u16 | .u32 => .u32 (UInt32.ofNat n)
  | .u64 => .u64 (UInt64.ofNat n)
  | .s8 | .s16 | .s32 => .i32 (Int32.ofInt (LittleEndian.signed p.size n))
  | .s64 => .i64 (Int64.ofInt (LittleEndian.signed p.size n))
  | .bool => .bool (n != 0)

def read (p : Primitive) : Take Scalar := do
  return p.ofWord (← Take.word p.size)

/-- The values of `n` words in a row, behind the values already found. -/
def ofWords (p : Primitive) (found : List Value) : Nat → List UInt8 → List Value
  | 0, _ => found.reverse
  | n + 1, bs =>
    p.ofWords (.scalar (p.ofWord (LittleEndian.read (bs.take p.size))) :: found) n
      (bs.drop p.size)

end Primitive

inductive FieldType
  | primitive (p : Primitive)
  | str
  | bytes
  deriving DecidableEq, Repr

/-- Records are not fields: they are opened and filled step by step. -/
def Variant.fieldType? : Variant → Option FieldType
  | .u8 => some (.primitive .u8)
  | .u16 => some (.primitive .u16)
  | .u32 => some (.primitive .u32)
  | .u64 => some (.primitive .u64)
  | .s8 => some (.primitive .s8)
  | .s16 => some (.primitive .s16)
  | .s32 => some (.primitive .s32)
  | .s64 => some (.primitive .s64)
  | .bool => some (.primitive .bool)
  | .bytes => some .bytes
  | .str => some .str
  | .record => none

namespace FieldType

/-- Size of a text or byte field. Without a length in the data the size is given outright, and the
limit on array lengths does not bear on it. -/
def fieldSize (limits : Limits) (count : UInt32) (carried : Option LengthWidth) : Take UInt32 :=
  match carried with
  | none => return count
  | some _ => Take.arrayLength limits count carried

/-- Reads a field of at most `count` items. A primitive with count zero and no length in the data
is a scalar. -/
def read (limits : Limits) (count : UInt32) (carried : Option LengthWidth) :
    FieldType → Take Value
  | .primitive p => do
    if count = 0 ∧ carried = none then
      return .scalar (← p.read)
    else
      let length ← Take.arrayLength limits count carried
      let bytes ← Take.bytes (length.toNat * p.size)
      return .array (p.ofWords [] length.toNat bytes)
  | .str => do
    let size ← fieldSize limits count carried
    let field ← Take.bytes size.toNat
    return .scalar (.str (FixedText.ofField field).text)
  | .bytes => do
    let size ← fieldSize limits count carried
    return .scalar (.bytes (← Take.bytes size.toNat))

end FieldType

end PortWire
