import PortWire.ErrorKind
import PortWire.FileMap.File

/-!
# Address layouts

Port data, definitions and user data each own a region of the address space, and the files that are
placed there without an address of their own start at multiples of the boundary of their region.
-/

namespace PortWire

/-- What can be wrong with a region. -/
inductive RegionFlaw
  | boundary
  | empty
  | commandArea
  deriving DecidableEq, Repr

def RegionFlaw.text : RegionFlaw → String
  | boundary => "boundary must be a non-zero power of two"
  | empty => "region is empty"
  | commandArea => "region overlaps the command area"

inductive RegionName
  | portData | definition | userData
  deriving DecidableEq, Repr

instance : Named RegionName where
  all := [.portData, .definition, .userData]
  name
    | .portData => "port_data"
    | .definition => "definition"
    | .userData => "user_data"

inductive PlacementError
  | unknownType (name : String)
  | regionFull (start stop : UInt32)
  | addressInUse (address : UInt32)
  | fileTooLarge (address length : UInt32)
  | invalidLayout (region : RegionName) (flaw : RegionFlaw)
  deriving DecidableEq, Repr

namespace PlacementError

def kind : PlacementError → ErrorKind
  | unknownType _ | invalidLayout .. => .invalidArgument
  | regionFull .. => .outOfMemory
  | addressInUse _ => .addressInUse
  | fileTooLarge .. => .fileTooLarge

def hex (n : UInt32) : String :=
  "0x" ++ String.ofList (Nat.toDigits 16 n.toNat)

def message : PlacementError → String
  | unknownType name => s!"file '{name}' has unknown type and no address"
  | regionFull start stop => s!"no room left in region {hex start}..{hex stop}"
  | addressInUse address => s!"address {hex address} overlaps a resident file"
  | fileTooLarge address length =>
    s!"file at {hex address} with length {length.toNat} overlaps the next resident file"
  | invalidLayout region flaw => s!"invalid {Named.name region} region: {flaw.text}"

instance : Reportable PlacementError where
  kind := kind
  message := message

end PlacementError

/-- The addresses from `start` up to but not including `stop`. -/
structure Region where
  start : UInt32
  stop : UInt32
  boundary : UInt32
  deriving DecidableEq, Repr

namespace Region

def Contains (r : Region) (address : Nat) : Prop :=
  r.start.toNat ≤ address ∧ address < r.stop.toNat

instance (r : Region) (address : Nat) : Decidable (r.Contains address) :=
  inferInstanceAs (Decidable (_ ∧ _))

/-- Adds the boundary less one and clears the bits of that number. For a power of two this is the
least multiple of the boundary that is not below `address`. -/
def alignUp (r : Region) (address : Nat) : Nat :=
  let low := r.boundary.toNat - 1
  let raised := address + low
  raised - (raised &&& low)

def IsPowerOfTwo (n : Nat) : Prop :=
  n = 1 <<< n.log2

instance (n : Nat) : Decidable (IsPowerOfTwo n) :=
  inferInstanceAs (Decidable (_ = _))

def flaw? (r : Region) : Option RegionFlaw :=
  if ¬ IsPowerOfTwo r.boundary.toNat then
    some .boundary
  else if r.stop ≤ r.start then
    some .empty
  else if Address.commandStart < r.stop then
    some .commandArea
  else
    none

end Region

structure Layout where
  portData : Region := ⟨0, 0x400_0000, 0x400⟩
  definition : Region := ⟨0x400_0000, 0x2000_0000, 0x10_0000⟩
  userData : Region := ⟨0x2000_0000, Address.commandStart, 0x10_0000⟩
  deriving DecidableEq, Repr

namespace Layout

def region (l : Layout) : RegionName → Region
  | .portData => l.portData
  | .definition => l.definition
  | .userData => l.userData

/-- The first flaw in the order of the regions. -/
def validate (l : Layout) : Except PlacementError Unit :=
  let flaws := (Named.all : List RegionName).filterMap fun n =>
    (l.region n).flaw?.map (PlacementError.invalidLayout n)
  match flaws with
  | [] => .ok ()
  | e :: _ => .error e

/-- The region that files of a type are placed in when they bring no address. -/
def regionFor (l : Layout) : FileType → Option Region
  | .inData | .outData => some l.portData
  | .definition => some l.definition
  | .custom => some l.userData
  | .unknown => none

end Layout

end PortWire
