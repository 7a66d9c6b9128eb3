import PortWire.Named

/-!
# Failure classes

The coarse classification that callers act on. Every error of the library belongs to one class and
words its own message.
-/

namespace PortWire

inductive ErrorKind
  | invalidArgument
  | missingBuffer
  | elementType
  | length
  | bufferBoundary
  | outOfMemory
  | addressInUse
  | fileTooLarge
  | invalidState
  | invalidProgram
  deriving DecidableEq, Repr

instance : Named ErrorKind where
  all := [.invalidArgument, .missingBuffer, .elementType, .length, .bufferBoundary, .outOfMemory,
    .addressInUse, .fileTooLarge, .invalidState, .invalidProgram]
  name
    | .invalidArgument => "invalid_argument"
    | .missingBuffer => "missing_buffer"
    | .elementType => "element_type"
    | .length => "length"
    | .bufferBoundary => "buffer_boundary"
    | .outOfMemory => "out_of_memory"
    | .addressInUse => "address_in_use"
    | .fileTooLarge => "file_too_large"
    | .invalidState => "invalid_state"
    | .invalidProgram => "invalid_program"

/-- The name of a class inside of the library. -/
def ErrorKind.label : ErrorKind → String
  | .invalidArgument => "InvalidArgument"
  | .missingBuffer => "MissingBuffer"
  | .elementType => "ElementType"
  | .length => "Length"
  | .bufferBoundary => "BufferBoundary"
  | .outOfMemory => "OutOfMemory"
  | .addressInUse => "AddressInUse"
  | .fileTooLarge => "FileTooLarge"
  | .invalidState => "InvalidState"
  | .invalidProgram => "InvalidProgram"

/-- Errors that have a class and a message. -/
class Reportable (ε : Type) where
  kind : ε → ErrorKind
  message : ε → String

end PortWire
