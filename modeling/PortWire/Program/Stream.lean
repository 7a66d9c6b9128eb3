import PortWire.Program.Element
import PortWire.Program.Header

/-!
# Instruction streams

A stream is a sequence of elements with nothing between them; a program is a header followed by a
stream. Decoding goes from left to right and stops at the first fault.
-/

namespace PortWire

namespace LocatedElement

/-- Reads `code`, which starts at `offset`, behind the elements found so far. -/
def decodeFrom (offset : UInt64) (found : List LocatedElement) :
    (code : List UInt8) → Except ProgramFault (List LocatedElement)
  | [] => .ok found.reverse
  | b :: rest =>
    match h : Element.decode offset b rest with
    | .error e => .error e
    | .ok (e, rest') =>
      have : rest'.length ≤ rest.length := Element.length_of_decode h
      decodeFrom (offset + UInt64.ofNat e.size) (⟨e, offset⟩ :: found) rest'
  termination_by code => code.length

/-- Reads a stream whose first byte counts as `base`. -/
def decodeStream (base : UInt64) (code : List UInt8) :
    Except ProgramFault (List LocatedElement) :=
  decodeFrom base [] code

end LocatedElement

structure DecodedProgram where
  header : Header
  elements : List LocatedElement
  deriving DecidableEq, Repr

namespace DecodedProgram

def decode (image : List UInt8) : Except ProgramFault DecodedProgram :=
  match Header.decode image with
  | .error e => .error e
  | .ok header =>
    match LocatedElement.decodeStream (UInt64.ofNat Header.size) (image.drop Header.size) with
    | .error e => .error e
    | .ok elements => .ok ⟨header, elements⟩

end DecodedProgram

end PortWire
