import PortWire.Instruction.Decode
import PortWire.LengthWidth

/-!
# Program elements

An element is one instruction byte. An arrayed element sets the flag of that byte and goes on with
an array instruction, whose variant is the width of the length and whose flag says that the length
travels in the data; a fixed array then carries its length in exactly that width.
-/

namespace PortWire

structure ArrayPart where
  width : LengthWidth
  dynamic : Bool
  /-- The length of a fixed array. -/
  length : Option UInt32
  deriving DecidableEq, Repr

structure Element where
  opcode : Opcode
  variant : Variant
  array : Option ArrayPart
  deriving DecidableEq, Repr

/-- An element together with the place of its first byte. -/
structure LocatedElement extends Element where
  offset : UInt64
  deriving DecidableEq, Repr

namespace ArrayPart

/-- Bytes of the encoded array part. -/
def size (a : ArrayPart) : Nat :=
  match a.length with
  | none => 1
  | some _ => 1 + a.width.bytes

def encode (a : ArrayPart) : List UInt8 :=
  Instruction.encode ⟨.array, a.width.variant, a.dynamic⟩ ::
    match a.length with
    | none => []
    | some n => a.width.write n

/-- Reads the array part that starts at `offset`. -/
def decode (offset : UInt64) : List UInt8 → Except ProgramFault (ArrayPart × List UInt8)
  | [] => .error (.unexpectedEnd offset)
  | b :: rest =>
    match Instruction.decode b with
    | .error e => .error e
    | .ok i =>
      if i.opcode ≠ .array then
        .error (.unexpectedInstruction offset i.opcode)
      else
        match LengthWidth.ofVariant? i.variant with
        | none => .error (.invalidLengthWidth i.variant)
        | some width =>
          if i.flag then
            .ok (⟨width, true, none⟩, rest)
          else
            match width.read? rest with
            | none => .error (.unexpectedEnd (offset + 1))
            | some n => .ok (⟨width, false, some n⟩, rest.drop width.bytes)

theorem length_of_decode {offset : UInt64} {bs rest : List UInt8} {a : ArrayPart}
    (h : decode offset bs = .ok (a, rest)) : rest.length ≤ bs.length := by
  unfold decode at h
  split at h
  · cases h
  · split at h
    · cases h
    · split at h
      · cases h
      · split at h
        · cases h
        · split at h
          · cases h
            simp
          · split at h
            · cases h
            · cases h
              simp only [List.length_drop, List.length_cons]
              omega

end ArrayPart

namespace Element

/-- Bytes of the encoded element. -/
def size (e : Element) : Nat :=
  match e.array with
  | none => 1
  | some a => 1 + a.size

def encode (e : Element) : List UInt8 :=
  Instruction.encode ⟨e.opcode, e.variant, e.array.isSome⟩ ::
    match e.array with
    | none => []
    | some a => a.encode

/-- Reads the element whose first byte `b` stands at `offset`. -/
def decode (offset : UInt64) (b : UInt8) (rest : List UInt8) :
    Except ProgramFault (Element × List UInt8) :=
  match Instruction.decode b with
  | .error e => .error e
  | .ok i =>
    if i.opcode = .array then
      .error (.unexpectedInstruction offset .array)
    else if i.flag then
      match ArrayPart.decode (offset + 1) rest with
      | .error e => .error e
      | .ok (a, rest') => .ok (⟨i.opcode, i.variant, some a⟩, rest')
    else
      .ok (⟨i.opcode, i.variant, none⟩, rest)

theorem length_of_decode {offset : UInt64} {b : UInt8} {bs rest : List UInt8} {e : Element}
    (h : decode offset b bs = .ok (e, rest)) : rest.length ≤ bs.length := by
  unfold decode at h
  split at h
  · cases h
  · split at h
    · cases h
    · split at h
      · split at h
        · cases h
        · rename_i decoded
          cases h
          exact ArrayPart.length_of_decode decoded
      · cases h
        exact Nat.le_refl _

end Element

namespace LocatedElement

/-- The offset in at least four hexadecimal digits, the instruction, and the array part: a literal
length, or the width of one that travels in the data. -/
def text (e : LocatedElement) : String :=
  let digits := Nat.toDigits 16 e.offset.toNat
  let offset := String.ofList (List.leftpad 4 '0' digits)
  let array :=
    match e.array with
    | none => ""
    | some a =>
      match a.length with
      | some n => s!"[{n.toNat}]"
      | none => s!"[*{Named.name a.width}]"
  s!"{offset}: {Named.name e.opcode} {Named.name e.variant}{array}"

end LocatedElement

end PortWire
