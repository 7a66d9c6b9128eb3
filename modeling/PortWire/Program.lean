import PortWire.Program.Stream

/-!
# Program buffers

The growing bytes of programs under construction. Bytes are only added at the end; the one place
that is written again is the data size of a header that is already there.
-/

namespace PortWire

structure Program where
  code : List UInt8
  deriving DecidableEq, Repr

namespace Program

def empty : Program := ⟨[]⟩

def length (p : Program) : Nat :=
  p.code.length

def isEmpty (p : Program) : Bool :=
  p.code.isEmpty

def append (p : Program) (bytes : List UInt8) : Program :=
  ⟨p.code ++ bytes⟩

def push (p : Program) (b : UInt8) : Program :=
  p.append [b]

/-- Appends a header whose data size is filled in later by `patchDataSize`. -/
def appendPlaceholder (p : Program) (type : ProgramType) : Program :=
  p.append (Header.placeholder type).encode

/-- Overwrites the data size of the header that starts at `offset`. -/
def patchDataSize (p : Program) (offset : Nat) (size : UInt32) : Except ProgramFault Program :=
  if offset + Header.size ≤ p.length then
    .ok ⟨p.code.take (offset + Header.dataSizeOffset) ++ LittleEndian.write 4 size.toNat ++
      p.code.drop (offset + Header.size)⟩
  else
    .error (.truncatedHeader (p.length - offset))

/-- Patches in place. Without a whole header at `offset` the program stays as it is. -/
def patch (offset : Nat) (size : UInt32) (p : Program) : Except ProgramFault Unit × Program :=
  match p.patchDataSize offset size with
  | .error fault => (.error fault, p)
  | .ok patched => (.ok (), patched)

def header (p : Program) : Except ProgramFault Header :=
  Header.decode p.code

def decode (p : Program) : Except ProgramFault DecodedProgram :=
  DecodedProgram.decode p.code

def truncate (p : Program) (length : Nat) : Program :=
  ⟨p.code.take length⟩

end Program

end PortWire
