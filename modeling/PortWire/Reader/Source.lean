import PortWire.LengthWidth
import PortWire.Limits
import PortWire.Program.Fault

/-!
# Sources

The bytes that are being read and how far reading has come. A reading step either succeeds and moves
on, or fails and leaves nothing to move; what a failed step had taken is thus never lost.
-/

namespace PortWire

/-- Misuse of the open frames of a reader. -/
inductive StateFault
  | emptyStack
  | outsideRecord
  | unfilledField
  | noValue
  deriving DecidableEq, Repr

def StateFault.text : StateFault → String
  | emptyStack => "read-state stack is empty"
  | outsideRecord => "selected element outside of a record"
  | unfilledField => "previous record element was never filled"
  | noValue => "element produced no value"

inductive ReadError
  | missingBuffer
  | pastEnd (needed remaining : Nat)
  | tooLong (length max : UInt32)
  | state (fault : StateFault)
  | notExecutable (variant : Variant)
  | limit (fault : LimitFault)
  | program (fault : ProgramFault)
  deriving DecidableEq, Repr

namespace ReadError

def kind : ReadError → ErrorKind
  | missingBuffer => .missingBuffer
  | pastEnd .. => .bufferBoundary
  | tooLong .. => .length
  | state _ => .invalidState
  | notExecutable _ => .elementType
  | limit fault => Reportable.kind fault
  | program fault => Reportable.kind fault

def message : ReadError → String
  | missingBuffer => "no input buffer; call begin first"
  | pastEnd needed remaining =>
    s!"read of {needed} bytes passes the end of the buffer ({remaining} remaining)"
  | tooLong length max =>
    s!"array length {length.toNat} exceeds the declared maximum {max.toNat}"
  | state fault => s!"invalid read state: {fault.text}"
  | notExecutable variant =>
    s!"{Named.name variant} elements cannot be executed from a program"
  | limit fault => Reportable.message fault
  | program fault => Reportable.message fault

instance : Reportable ReadError where
  kind := kind
  message := message

end ReadError

structure Source where
  /-- Absent until reading begins. -/
  buffer : Option (List UInt8) := none
  pos : Nat := 0
  deriving DecidableEq, Repr

def Source.remaining (s : Source) : Nat :=
  match s.buffer with
  | none => 0
  | some data => data.length - s.pos

/-- A reading step over a source. -/
abbrev Take := StateT Source (Except ReadError)

namespace Take

def fail {α : Type} (e : ReadError) : Take α :=
  fun _ => .error e

def bytes (n : Nat) : Take (List UInt8) := fun s =>
  match s.buffer with
  | none => .error .missingBuffer
  | some data =>
    if n ≤ s.remaining then
      .ok ((data.drop s.pos).take n, { s with pos := s.pos + n })
    else
      .error (.pastEnd n s.remaining)

/-- A number in `size` bytes. -/
def word (size : Nat) : Take Nat := do
  return LittleEndian.read (← bytes size)

/-- A length as it stands: `count`, or the one that the data carries. -/
def length (count : UInt32) : Option LengthWidth → Take UInt32
  | none => return count
  | some width => return UInt32.ofNat (← word width.bytes)

/-- The item count of an array. A length in the data is at most `count`. -/
def arrayLength (limits : Limits) (count : UInt32) (carried : Option LengthWidth) :
    Take UInt32 := do
  let length ← length count carried
  if count < length then
    fail (.tooLong length count)
  else
    match limits.checkArrayLen length with
    | .error fault => fail (.limit fault)
    | .ok () => return length

end Take

end PortWire
