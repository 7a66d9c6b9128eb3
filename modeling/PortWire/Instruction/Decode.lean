import PortWire.Program.Fault

/-!
# Reading instruction bytes

A byte is an instruction if both its opcode and its variant are assigned. Every instruction has one
byte, and that byte is read as no other instruction.
-/

namespace PortWire

theorem Opcode.ofBits?_bits (o : Opcode) : Opcode.ofBits? o.bits = some o := by
  cases o <;> rfl

theorem Opcode.bits_of_ofBits? {b : UInt8} {o : Opcode} (h : Opcode.ofBits? b = some o) :
    o.bits = b := by
  simpa using List.find?_some h

theorem Variant.ofBits?_bits (v : Variant) : Variant.ofBits? v.bits = some v := by
  cases v <;> rfl

theorem Variant.bits_of_ofBits? {b : UInt8} {v : Variant} (h : Variant.ofBits? b = some v) :
    v.bits = b := by
  simpa using List.find?_some h

/-- The fields of a byte make up the byte. -/
theorem InstructionFields.encode_decode (b : UInt8) :
    (InstructionFields.decode b).encode = b := by
  have h : ∀ n : Fin 256, (InstructionFields.decode (UInt8.ofNat n)).encode = UInt8.ofNat n := by
    decide +kernel
  simpa using h ⟨b.toNat, b.toNat_lt⟩

namespace Instruction

/-- Unassigned opcodes are reported before unassigned variants. -/
def ofFields (f : InstructionFields) : Except ProgramFault Instruction :=
  match Opcode.ofBits? f.opcode with
  | none => .error (.unknownOpcode f.opcode)
  | some opcode =>
    match Variant.ofBits? f.variant with
    | none => .error (.unknownVariant f.variant)
    | some variant => .ok ⟨opcode, variant, f.flags != 0⟩

def decode (b : UInt8) : Except ProgramFault Instruction :=
  ofFields (InstructionFields.decode b)

theorem decode_encode (i : Instruction) : decode i.encode = .ok i := by
  obtain ⟨opcode, variant, flag⟩ := i
  cases opcode <;> cases variant <;> cases flag <;> rfl

theorem encode_of_decode {b : UInt8} {i : Instruction} (h : decode b = .ok i) : i.encode = b := by
  have flag : ∀ n : Fin 256,
      ((InstructionFields.decode (UInt8.ofNat n)).flags != 0).toUInt8 =
        (InstructionFields.decode (UInt8.ofNat n)).flags := by
    decide +kernel
  have hflag : ((InstructionFields.decode b).flags != 0).toUInt8 =
      (InstructionFields.decode b).flags := by
    simpa using flag ⟨b.toNat, b.toNat_lt⟩
  unfold decode ofFields at h
  split at h
  · cases h
  · rename_i opcode hopcode
    split at h
    · cases h
    · rename_i variant hvariant
      cases h
      simp only [encode, fields, Opcode.bits_of_ofBits? hopcode, Variant.bits_of_ofBits? hvariant,
        hflag]
      exact InstructionFields.encode_decode b

end Instruction

end PortWire
