import PortWire.LittleEndian
import PortWire.Program.Fault

/-!
# Program headers

The first seven bytes of an image: the version as a 16-bit word, the program type in one byte, and
the least size of the port data as a 32-bit word.
-/

namespace PortWire

inductive ProgramType
  | unpack
  | pack
  deriving DecidableEq, Repr

instance : Named ProgramType where
  all := [.unpack, .pack]
  name
    | .unpack => "Unpack"
    | .pack => "Pack"

namespace ProgramType

def bits : ProgramType → UInt8
  | .unpack => 0
  | .pack => 1

def ofBits? (b : UInt8) : Option ProgramType :=
  (Named.all : List ProgramType).find? fun t => t.bits = b

/-- The opcode of the elements in a program of this type. -/
def elementOpcode : ProgramType → Opcode
  | .unpack => .unpack
  | .pack => .pack

end ProgramType

structure Header where
  version : UInt16
  type : ProgramType
  dataSize : UInt32
  deriving DecidableEq, Repr

namespace Header

def currentVersion : UInt16 := 1
def size : Nat := 7

/-- Where the data size starts inside the header. -/
def dataSizeOffset : Nat := 3

/-- A header of the current version whose data size is not yet known. -/
def placeholder (type : ProgramType) : Header :=
  ⟨currentVersion, type, 0⟩

def encode (h : Header) : List UInt8 :=
  LittleEndian.write 2 h.version.toNat ++ h.type.bits :: LittleEndian.write 4 h.dataSize.toNat

def decode : List UInt8 → Except ProgramFault Header
  | v₀ :: v₁ :: t :: d₀ :: d₁ :: d₂ :: d₃ :: _ =>
    let version := UInt16.ofNat (LittleEndian.read [v₀, v₁])
    if version ≠ currentVersion then
      .error (.unsupportedVersion version)
    else
      match ProgramType.ofBits? t with
      | none => .error (.unknownProgramType t)
      | some type => .ok ⟨version, type, UInt32.ofNat (LittleEndian.read [d₀, d₁, d₂, d₃])⟩
  | bytes => .error (.truncatedHeader bytes.length)

end Header

end PortWire
