import PortWire.Named

/-!
# Instruction bytes

An instruction is one byte with three fields: the opcode in the three low bits, the variant in the
four bits above it, and a flag on top. Raw fields wider than their place lose their high bits; the
typed form knows only the assigned opcodes and variants.
-/

namespace PortWire

inductive Opcode
  /-- Read an element from port data. -/
  | unpack
  /-- Write an element into port data. -/
  | pack
  /-- Repeat the element before it; the variant is the width of the length. -/
  | array
  deriving DecidableEq, Repr

inductive Variant
  | u8 | u16 | u32 | u64 | s8 | s16 | s32 | s64 | record | bool | bytes | str
  deriving DecidableEq, Repr

instance : Named Opcode where
  all := [.unpack, .pack, .array]
  name
    | .unpack => "Unpack"
    | .pack => "Pack"
    | .array => "Array"

instance : Named Variant where
  all := [.u8, .u16, .u32, .u64, .s8, .s16, .s32, .s64, .record, .bool, .bytes, .str]
  name
    | .u8 => "U8"
    | .u16 => "U16"
    | .u32 => "U32"
    | .u64 => "U64"
    | .s8 => "S8"
    | .s16 => "S16"
    | .s32 => "S32"
    | .s64 => "S64"
    | .record => "Record"
    | .bool => "Bool"
    | .bytes => "Bytes"
    | .str => "Str"

namespace Opcode

def bits : Opcode → UInt8
  | .unpack => 0
  | .pack => 1
  | .array => 2

def ofBits? (b : UInt8) : Option Opcode :=
  (Named.all : List Opcode).find? fun o => o.bits = b

end Opcode

namespace Variant

/-- The numbers 9 and above 12 are unassigned. -/
def bits : Variant → UInt8
  | .u8 => 0
  | .u16 => 1
  | .u32 => 2
  | .u64 => 3
  | .s8 => 4
  | .s16 => 5
  | .s32 => 6
  | .s64 => 7
  | .record => 8
  | .bool => 10
  | .bytes => 11
  | .str => 12

def ofBits? (b : UInt8) : Option Variant :=
  (Named.all : List Variant).find? fun v => v.bits = b

/-- Bytes of one packed element; records have no size of their own. -/
def elementSize? : Variant → Option Nat
  | .u8 | .s8 | .bool | .bytes | .str => some 1
  | .u16 | .s16 => some 2
  | .u32 | .s32 => some 4
  | .u64 | .s64 => some 8
  | .record => none

end Variant

/-- The three fields of an instruction byte as plain numbers. -/
structure InstructionFields where
  opcode : UInt8
  variant : UInt8
  flags : UInt8
  deriving DecidableEq, Repr

namespace InstructionFields

def opcodeMask : UInt8 := 0x07
def variantShift : UInt8 := 3
def variantMask : UInt8 := 0x0F
def flagShift : UInt8 := 7
def flagMask : UInt8 := 0x01

def encode (f : InstructionFields) : UInt8 :=
  (f.opcode &&& opcodeMask) ||| ((f.variant &&& variantMask) <<< variantShift) |||
    ((f.flags &&& flagMask) <<< flagShift)

def decode (b : UInt8) : InstructionFields where
  opcode := b &&& opcodeMask
  variant := (b >>> variantShift) &&& variantMask
  flags := (b >>> flagShift) &&& flagMask

end InstructionFields

structure Instruction where
  opcode : Opcode
  variant : Variant
  flag : Bool
  deriving DecidableEq, Repr

namespace Instruction

def fields (i : Instruction) : InstructionFields :=
  ⟨i.opcode.bits, i.variant.bits, i.flag.toUInt8⟩

def encode (i : Instruction) : UInt8 :=
  i.fields.encode

end Instruction

end PortWire
