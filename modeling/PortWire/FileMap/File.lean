import PortWire.Named

/-!
# Files

A file names a stretch of the 30-bit address space. Its address may carry flag bits above those 30,
which take no part in placement; one address is set aside for files that are yet to be placed.
-/

namespace PortWire

namespace Address

/-- The bits of an address that place a file. -/
def internalMask : UInt32 := 0x3FFF_FFFF

/-- Set on the address of a file that belongs to a remote peer. -/
def remoteBit : UInt32 := 0x8000_0000

/-- Marks a file that has no address yet. -/
def unassigned : UInt32 := 0xFFFF_FFFF

/-- Where the command area starts, above every region. -/
def commandStart : UInt32 := 0x3FFF_FC00

def internal (address : UInt32) : UInt32 :=
  address &&& internalMask

end Address

inductive FileType
  | unknown | inData | outData | definition | custom
  deriving DecidableEq, Repr

inductive DigestType
  | none | sha1 | sha256
  deriving DecidableEq, Repr

instance : Named FileType where
  all := [.unknown, .inData, .outData, .definition, .custom]
  name
    | .unknown => "Unknown"
    | .inData => "InData"
    | .outData => "OutData"
    | .definition => "Definition"
    | .custom => "Custom"

instance : Named DigestType where
  all := [.none, .sha1, .sha256]
  name
    | .none => "None"
    | .sha1 => "Sha1"
    | .sha256 => "Sha256"

structure FileInfo where
  address : UInt32 := Address.unassigned
  length : UInt32
  name : String
  digest : DigestType := .none
  deriving DecidableEq, Repr

namespace FileInfo

def isUnassigned (f : FileInfo) : Bool :=
  f.address = Address.unassigned

def isRemote (f : FileInfo) : Bool :=
  !f.isUnassigned && f.address &&& Address.remoteBit != 0

/-- The first address of the file. -/
def start (f : FileInfo) : Nat :=
  (Address.internal f.address).toNat

/-- The address behind the last one of the file; it may lie outside the address space. -/
def stop (f : FileInfo) : Nat :=
  f.start + f.length.toNat

def Contains (f : FileInfo) (address : Nat) : Prop :=
  f.start ≤ address ∧ address < f.stop

instance (f : FileInfo) (address : Nat) : Decidable (f.Contains address) :=
  inferInstanceAs (Decidable (_ ∧ _))

end FileInfo

structure File where
  info : FileInfo
  type : FileType := .unknown
  deriving DecidableEq, Repr

namespace File

def start (f : File) : Nat :=
  f.info.start

def stop (f : File) : Nat :=
  f.info.stop

end File

end PortWire
