import PortWire.ErrorKind
import PortWire.Instruction

/-!
# Faults of program images

What can be wrong with the bytes of a program. Offsets count from the start of the image.
-/

namespace PortWire

inductive ProgramFault
  | unknownOpcode (bits : UInt8)
  | unknownVariant (bits : UInt8)
  | truncatedHeader (length : Nat)
  | unsupportedVersion (version : UInt16)
  | unknownProgramType (bits : UInt8)
  | unexpectedEnd (offset : UInt64)
  | unexpectedInstruction (offset : UInt64) (found : Opcode)
  | invalidLengthWidth (found : Variant)
  deriving DecidableEq, Repr

namespace ProgramFault

def message : ProgramFault → String
  | unknownOpcode bits => s!"unknown opcode {bits.toNat}"
  | unknownVariant bits => s!"unknown variant {bits.toNat}"
  | truncatedHeader length => s!"program is {length} bytes, shorter than its header"
  | unsupportedVersion version => s!"unsupported program version {version.toNat}"
  | unknownProgramType bits => s!"unknown program type {bits.toNat}"
  | unexpectedEnd offset =>
    s!"instruction stream ended unexpectedly at offset {offset.toNat}"
  | unexpectedInstruction offset found =>
    s!"unexpected {Named.name found} instruction at offset {offset.toNat}"
  | invalidLengthWidth found => s!"invalid array length width {Named.name found}"

instance : Reportable ProgramFault where
  kind _ := .invalidProgram
  message := message

end ProgramFault

end PortWire
