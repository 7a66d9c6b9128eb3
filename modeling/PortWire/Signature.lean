import PortWire.Instruction

/-!
# Port signatures

The part of a node description that decides how its ports are packed: the base type and the array
shape of each data element. A zero array length means a scalar.
-/

namespace PortWire

inductive BaseType
  | none | u8 | u16 | u32 | u64 | s8 | s16 | s32 | s64 | bool | bytes | str | record
  deriving DecidableEq, Repr

instance : Named BaseType where
  all := [.none, .u8, .u16, .u32, .u64, .s8, .s16, .s32, .s64, .bool, .bytes, .str, .record]
  name
    | .none => "None"
    | .u8 => "U8"
    | .u16 => "U16"
    | .u32 => "U32"
    | .u64 => "U64"
    | .s8 => "S8"
    | .s16 => "S16"
    | .s32 => "S32"
    | .s64 => "S64"
    | .bool => "Bool"
    | .bytes => "Bytes"
    | .str => "Str"
    | .record => "Record"

/-- The variant of a type that can be compiled; records have no instruction of their own. -/
def BaseType.variant? : BaseType → Option Variant
  | .u8 => some .u8
  | .u16 => some .u16
  | .u32 => some .u32
  | .u64 => some .u64
  | .s8 => some .s8
  | .s16 => some .s16
  | .s32 => some .s32
  | .s64 => some .s64
  | .bool => some .bool
  | .bytes => some .bytes
  | .str => some .str
  | .none | .record => .none

structure DataElement where
  baseType : BaseType
  arrayLen : UInt32 := 0
  dynamic : Bool := false
  deriving DecidableEq, Repr

namespace DataElement

def scalar (baseType : BaseType) : DataElement :=
  ⟨baseType, 0, false⟩

def array (baseType : BaseType) (length : UInt32) : DataElement :=
  ⟨baseType, length, false⟩

/-- An array whose length travels in the data and is at most `bound`. -/
def dynamicArray (baseType : BaseType) (bound : UInt32) : DataElement :=
  ⟨baseType, bound, true⟩

def isArray (e : DataElement) : Bool :=
  e.arrayLen ≠ 0

end DataElement

structure Port where
  name : String
  element : DataElement
  deriving DecidableEq, Repr

structure Node where
  name : String
  providePorts : List Port := []
  requirePorts : List Port := []
  deriving DecidableEq, Repr

end PortWire
