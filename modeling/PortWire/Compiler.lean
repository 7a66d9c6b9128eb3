import PortWire.Program
import PortWire.Signature

/-!
# Compiling signatures

An element is checked as a whole before any byte is written, so a refused element leaves its buffer
alone. A port program is a header followed by one element; the least data size of that element is
written back into the header.
-/

namespace PortWire

inductive CompileError
  | portIndex (index count : Nat)
  | missingBuffer
  | elementType (type : BaseType)
  | length (n : UInt32)
  | dataSizeOverflow
  | program (fault : ProgramFault)
  deriving DecidableEq, Repr

namespace CompileError

def kind : CompileError → ErrorKind
  | portIndex .. => .invalidArgument
  | missingBuffer => .missingBuffer
  | elementType _ => .elementType
  | length _ | dataSizeOverflow => .length
  | program fault => Reportable.kind fault

def message : CompileError → String
  | portIndex index count => s!"port index {index} out of range ({count} ports)"
  | missingBuffer => "no program attached to the compiler"
  | elementType type => s!"base type {Named.name type} cannot be compiled"
  | length n => s!"array length {n.toNat} does not fit any length class"
  | dataSizeOverflow => "minimum data size overflows 32 bits"
  | program fault => Reportable.message fault

instance : Reportable CompileError where
  kind := kind
  message := message

end CompileError

namespace DataElement

/-- The program element for `e` and the least number of data bytes that it needs. -/
def compile (opcode : Opcode) (e : DataElement) : Except CompileError (Element × Nat) :=
  match e.baseType.variant? with
  | none => .error (.elementType e.baseType)
  | some variant =>
    match variant.elementSize? with
    | none => .error (.elementType e.baseType)
    | some size =>
      if !e.isArray then
        .ok (⟨opcode, variant, none⟩, size)
      else
        match LengthWidth.ofLen? e.arrayLen with
        | none => .error (.length e.arrayLen)
        | some width =>
          if e.dynamic then
            .ok (⟨opcode, variant, some ⟨width, true, none⟩⟩, 0)
          else
            .ok (⟨opcode, variant, some ⟨width, false, some e.arrayLen⟩⟩,
              size * e.arrayLen.toNat)

end DataElement

/-- A compiler, the buffers it may write to, and the one that is attached to it. -/
structure Compiler where
  programs : List Program
  target : Option Nat := none
  /-- Least data size of the elements compiled since the last reset. -/
  minDataSize : UInt32 := 0
  deriving DecidableEq, Repr

namespace Compiler

def attached? (c : Compiler) : Option Program :=
  c.target.bind fun i => c.programs[i]?

/-- Replaces the contents of the attached buffer. -/
def put (c : Compiler) (p : Program) : Compiler :=
  match c.target with
  | none => c
  | some i => { c with programs := c.programs.set i p }

def attach (i : Nat) (c : Compiler) : Compiler :=
  { c with target := some i }

def reset (c : Compiler) : Compiler :=
  { c with minDataSize := 0 }

/-- A new compiler over the same buffers. -/
def restart (c : Compiler) : Compiler :=
  { programs := c.programs }

/-- Appends one element to the attached buffer. -/
def compileElement (opcode : Opcode) (e : DataElement) (c : Compiler) :
    Except CompileError Unit × Compiler :=
  match c.attached? with
  | none => (.error .missingBuffer, c)
  | some p =>
    match e.compile opcode with
    | .error err => (.error err, c)
    | .ok (element, size) =>
      let total := c.minDataSize.toNat + size
      if total < UInt32.size then
        (.ok (), { c.put (p.append element.encode) with minDataSize := UInt32.ofNat total })
      else
        (.error .dataSizeOverflow, c)

/-- Appends a whole port program to the attached buffer. On failure the buffer gets back its former
length, while the size total stays at zero. -/
def compilePort (type : ProgramType) (port : Port) (c : Compiler) :
    Except CompileError Unit × Compiler :=
  match c.attached? with
  | none => (.error .missingBuffer, c)
  | some p =>
    let start := p.length
    let opened := (c.put (p.appendPlaceholder type)).reset
    let (result, filled) := opened.compileElement type.elementOpcode port.element
    match filled.attached? with
    | none => (.error .missingBuffer, filled)
    | some q =>
      match result with
      | .error err => (.error err, filled.put (q.truncate start))
      | .ok () =>
        match q.patchDataSize start filled.minDataSize with
        | .error fault => (.error (.program fault), filled.put (q.truncate start))
        | .ok patched => (.ok (), filled.put patched)

/-- Compiles port number `index` of `ports` into buffer `i`, which stays attached either way. -/
def compilePortAt (type : ProgramType) (ports : List Port) (index i : Nat) (c : Compiler) :
    Except CompileError Unit × Compiler :=
  let c := c.attach i
  match ports[index]? with
  | none => (.error (.portIndex index ports.length), c)
  | some port => c.compilePort type port

/-- A provide port is packed. -/
def compileProvidePort (node : Node) (index i : Nat) (c : Compiler) :
    Except CompileError Unit × Compiler :=
  c.compilePortAt .pack node.providePorts index i

/-- A require port is unpacked. -/
def compileRequirePort (node : Node) (index i : Nat) (c : Compiler) :
    Except CompileError Unit × Compiler :=
  c.compilePortAt .unpack node.requirePorts index i

end Compiler

/-- The port program of a single element. -/
def DataElement.program (type : ProgramType) (e : DataElement) : Except CompileError Program :=
  let (result, c) := Compiler.compilePort type ⟨"", e⟩ { programs := [.empty], target := some 0 }
  match result with
  | .error err => .error err
  | .ok () =>
    match c.attached? with
    | none => .error .missingBuffer
    | some p => .ok p

end PortWire
