import PortWire.ErrorKind

/-!
# Limits on untrusted data

Port data comes from remote peers. How deep values nest while they are read, and how many items an
array may have, is bounded by the caller and not by the data.
-/

namespace PortWire

structure Limits where
  /-- Most frames that may be open at a time. -/
  maxDepth : UInt64 := 64
  maxArrayLen : UInt32 := 0xFFFF_FFFE
  deriving DecidableEq, Repr

inductive LimitFault
  | depth (limit : UInt64)
  | arrayLen (length limit : UInt32)
  deriving DecidableEq, Repr

namespace LimitFault

def kind : LimitFault → ErrorKind
  | depth _ => .outOfMemory
  | arrayLen .. => .length

def message : LimitFault → String
  | depth limit => s!"read-state depth limit exceeded (limit {limit.toNat})"
  | arrayLen length limit => s!"array length {length.toNat} exceeds limit {limit.toNat}"

instance : Reportable LimitFault where
  kind := kind
  message := message

end LimitFault

namespace Limits

/-- Asked before a frame is opened that makes the stack `depth` frames deep. -/
def checkDepth (l : Limits) (depth : Nat) : Except LimitFault Unit :=
  if depth ≤ l.maxDepth.toNat then .ok () else .error (.depth l.maxDepth)

def checkArrayLen (l : Limits) (length : UInt32) : Except LimitFault Unit :=
  if length ≤ l.maxArrayLen then .ok () else .error (.arrayLen length l.maxArrayLen)

end Limits

end PortWire
