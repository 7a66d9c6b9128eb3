import PortWire.Exchange.Form
import PortWire.Limits
import PortWire.Program

/-!
# Documents of programs and limits

The length of an array part and the array part of an element may be null, or missing from the object
that holds them. Any limit left out is the standard one.
-/

namespace PortWire

variable {C : Codec}

def Instruction.documentFields : List Field :=
  [⟨"opcode", .refused⟩, ⟨"variant", .refused⟩, ⟨"flag", .refused⟩]

instance : Form C Instruction where
  write i := C.ofFields [
    ("opcode", C.write i.opcode),
    ("variant", C.write i.variant),
    ("flag", C.write i.flag)]
  read? d :=
    match C.fields? Instruction.documentFields d with
    | some [opcode, variant, flag] => do
      return ⟨← C.required? opcode, ← C.required? variant, ← C.required? flag⟩
    | _ => none

def Header.documentFields : List Field :=
  [⟨"version", .refused⟩, ⟨"program_type", .refused⟩, ⟨"data_size", .refused⟩]

instance : Form C Header where
  write h := C.ofFields [
    ("version", C.write h.version),
    ("program_type", C.write h.type),
    ("data_size", C.write h.dataSize)]
  read? d :=
    match C.fields? Header.documentFields d with
    | some [version, type, dataSize] => do
      return ⟨← C.required? version, ← C.required? type, ← C.required? dataSize⟩
    | _ => none

def Program.documentFields : List Field :=
  [⟨"code", .refused⟩]

instance : Form C Program where
  write p := C.ofFields [("code", C.write p.code)]
  read? d :=
    match C.fields? Program.documentFields d with
    | some [code] => do
      return ⟨← C.required? code⟩
    | _ => none

def ArrayPart.documentFields : List Field :=
  [⟨"width", .refused⟩, ⟨"dynamic", .refused⟩, ⟨"length", .nullable⟩]

instance : Form C ArrayPart where
  write a := C.ofFields [
    ("width", C.write a.width),
    ("dynamic", C.write a.dynamic),
    ("length", C.write a.length)]
  read? d :=
    match C.fields? ArrayPart.documentFields d with
    | some [width, dynamic, length] => do
      return ⟨← C.required? width, ← C.required? dynamic, ← C.orElse? none length⟩
    | _ => none

def LocatedElement.documentFields : List Field :=
  [⟨"offset", .refused⟩, ⟨"opcode", .refused⟩, ⟨"variant", .refused⟩, ⟨"array", .nullable⟩]

instance : Form C LocatedElement where
  write e := C.ofFields [
    ("offset", C.write e.offset),
    ("opcode", C.write e.opcode),
    ("variant", C.write e.variant),
    ("array", C.write e.array)]
  read? d :=
    match C.fields? LocatedElement.documentFields d with
    | some [offset, opcode, variant, array] => do
      let offset ← C.required? offset
      return ⟨⟨← C.required? opcode, ← C.required? variant, ← C.orElse? none array⟩, offset⟩
    | _ => none

def DecodedProgram.documentFields : List Field :=
  [⟨"header", .refused⟩, ⟨"elements", .refused⟩]

instance : Form C DecodedProgram where
  write p := C.ofFields [
    ("header", C.write p.header),
    ("elements", C.write p.elements)]
  read? d :=
    match C.fields? DecodedProgram.documentFields d with
    | some [header, elements] => do
      return ⟨← C.required? header, ← C.required? elements⟩
    | _ => none

def Limits.documentFields : List Field :=
  [⟨"max_state_depth", .defaulted⟩, ⟨"max_array_len", .defaulted⟩]

instance : Form C Limits where
  write l := C.ofFields [
    ("max_state_depth", C.write l.maxDepth),
    ("max_array_len", C.write l.maxArrayLen)]
  read? d :=
    match C.fields? Limits.documentFields d with
    | some [maxDepth, maxArrayLen] => do
      let standard : Limits := {}
      return ⟨← C.orElse? standard.maxDepth maxDepth, ← C.orElse? standard.maxArrayLen maxArrayLen⟩
    | _ => none

end PortWire
