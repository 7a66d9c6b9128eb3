import PortWire.Proofs.Compiler.PortProgram
import PortWire.Reader

/-!
# Meaning of data elements

The meaning of a data element is a function of the bytes that are left. It is said here without
instructions, headers or frames. The declared length of a dynamic array takes part in it through the
size of the length prefix only.
-/

namespace PortWire

namespace BaseType

/-- Texts and byte fields are single values; the items of other arrays are values of their own. -/
def itemwise : BaseType → Bool
  | .str | .bytes => false
  | _ => true

/-- The scalar in a field: integers are little-endian, and in two's complement where signed. -/
def scalar (t : BaseType) (field : List UInt8) : Scalar :=
  let word := LittleEndian.read field
  match t with
  | .str => .str (FixedText.ofField field).text
  | .bytes => .bytes field
  | .bool => .bool (word != 0)
  | .u64 => .u64 (UInt64.ofNat word)
  | .s64 => .i64 (Int64.ofInt (BitVec.ofNat 64 word).toInt)
  | .s8 | .s16 | .s32 => .i32 (Int32.ofInt (BitVec.ofNat (8 * t.width) word).toInt)
  | _ => .u32 (UInt32.ofNat word)

/-- The value of an array of `n` items. -/
def gathered (t : BaseType) (n : Nat) (field : List UInt8) : Value :=
  if t.itemwise then
    .array ((List.range n).map fun i =>
      .scalar (t.scalar ((field.drop (i * t.width)).take t.width)))
  else
    .scalar (t.scalar field)

end BaseType

namespace DataElement

/-- Bytes of the length prefix of a dynamic array, by its declared length. -/
def prefixSize (bound : UInt32) : Nat :=
  if bound < 0xFF then 1 else if bound < 0xFFFF then 2 else 4

/-- The value at the front of `rest` and how many bytes it takes. -/
def meaning (e : DataElement) (maxArrayLen : UInt32) (rest : List UInt8) :
    Except ReadError (Value × Nat) :=
  let least := e.leastSize e.baseType.width
  if rest.length < least then
    .error (.pastEnd least rest.length)
  else if e.arrayLen = 0 then
    .ok (.scalar (e.baseType.scalar (rest.take least)), least)
  else if !e.dynamic then
    if e.baseType.itemwise ∧ maxArrayLen < e.arrayLen then
      .error (.limit (.arrayLen e.arrayLen maxArrayLen))
    else
      .ok (e.baseType.gathered e.arrayLen.toNat (rest.take least), least)
  else if rest.length < prefixSize e.arrayLen then
    .error (.pastEnd (prefixSize e.arrayLen) rest.length)
  else
    let length := UInt32.ofNat (LittleEndian.read (rest.take (prefixSize e.arrayLen)))
    let field := rest.drop (prefixSize e.arrayLen)
    let needed := length.toNat * e.baseType.width
    if maxArrayLen < length then
      .error (.limit (.arrayLen length maxArrayLen))
    else if field.length < needed then
      .error (.pastEnd needed field.length)
    else
      .ok (e.baseType.gathered length.toNat (field.take needed), prefixSize e.arrayLen + needed)

/-- The length that stands in front of a dynamic array. -/
def carriedLength (e : DataElement) (rest : List UInt8) : UInt32 :=
  UInt32.ofNat (LittleEndian.read (rest.take (prefixSize e.arrayLen)))

variable {e : DataElement}

theorem leastSize_scalar (scalar : e.arrayLen = 0) :
    e.leastSize e.baseType.width = e.baseType.width := by
  simp [leastSize, isArray, scalar]

theorem leastSize_fixed (arrayed : e.arrayLen ≠ 0) (fixed : e.dynamic = false) :
    e.leastSize e.baseType.width = e.arrayLen.toNat * e.baseType.width := by
  simp [leastSize, isArray, arrayed, fixed, Nat.mul_comm]

theorem leastSize_dynamic (arrayed : e.arrayLen ≠ 0) (dynamic : e.dynamic = true) :
    e.leastSize e.baseType.width = 0 := by
  simp [leastSize, isArray, arrayed, dynamic]

theorem meaning_scalar (scalar : e.arrayLen = 0) (maxArrayLen : UInt32) (rest : List UInt8) :
    e.meaning maxArrayLen rest =
      if rest.length < e.baseType.width then
        .error (.pastEnd e.baseType.width rest.length)
      else
        .ok (.scalar (e.baseType.scalar (rest.take e.baseType.width)), e.baseType.width) := by
  simp only [meaning, leastSize_scalar scalar, if_pos scalar]

theorem meaning_fixed (arrayed : e.arrayLen ≠ 0) (fixed : e.dynamic = false)
    (maxArrayLen : UInt32) (rest : List UInt8) :
    e.meaning maxArrayLen rest =
      let size := e.arrayLen.toNat * e.baseType.width
      if rest.length < size then
        .error (.pastEnd size rest.length)
      else if e.baseType.itemwise ∧ maxArrayLen < e.arrayLen then
        .error (.limit (.arrayLen e.arrayLen maxArrayLen))
      else
        .ok (e.baseType.gathered e.arrayLen.toNat (rest.take size), size) := by
  simp only [meaning, leastSize_fixed arrayed fixed, if_neg arrayed, fixed, Bool.not_false, if_true]

theorem meaning_dynamic (arrayed : e.arrayLen ≠ 0) (dynamic : e.dynamic = true)
    (maxArrayLen : UInt32) (rest : List UInt8) :
    e.meaning maxArrayLen rest =
      let field := rest.drop (prefixSize e.arrayLen)
      let needed := (e.carriedLength rest).toNat * e.baseType.width
      if rest.length < prefixSize e.arrayLen then
        .error (.pastEnd (prefixSize e.arrayLen) rest.length)
      else if maxArrayLen < e.carriedLength rest then
        .error (.limit (.arrayLen (e.carriedLength rest) maxArrayLen))
      else if field.length < needed then
        .error (.pastEnd needed field.length)
      else
        .ok (e.baseType.gathered (e.carriedLength rest).toNat (field.take needed),
          prefixSize e.arrayLen + needed) := by
  simp only [meaning, leastSize_dynamic arrayed dynamic, if_neg (Nat.not_lt_zero _),
    if_neg arrayed, dynamic, Bool.not_true, Bool.false_eq_true, if_false, carriedLength]
  rfl

end DataElement

end PortWire
