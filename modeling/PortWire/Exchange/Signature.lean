import PortWire.Exchange.Form
import PortWire.Signature

/-!
# Documents of signatures

An element that does not give its array shape is a scalar, and a node that does not list its ports
has none.
-/

namespace PortWire

variable {C : Codec}

def DataElement.documentFields : List Field :=
  [⟨"base_type", .refused⟩, ⟨"array_len", .defaulted⟩, ⟨"dynamic_array", .defaulted⟩]

instance : Form C DataElement where
  write e := C.ofFields [
    ("base_type", C.write e.baseType),
    ("array_len", C.write e.arrayLen),
    ("dynamic_array", C.write e.dynamic)]
  read? d :=
    match C.fields? DataElement.documentFields d with
    | some [baseType, arrayLen, dynamic] => do
      return ⟨← C.required? baseType, ← C.orElse? 0 arrayLen, ← C.orElse? false dynamic⟩
    | _ => none

def Port.documentFields : List Field :=
  [⟨"name", .refused⟩, ⟨"element", .refused⟩]

instance : Form C Port where
  write p := C.ofFields [("name", C.write p.name), ("element", C.write p.element)]
  read? d :=
    match C.fields? Port.documentFields d with
    | some [name, element] => do
      return ⟨← C.required? name, ← C.required? element⟩
    | _ => none

def Node.documentFields : List Field :=
  [⟨"name", .refused⟩, ⟨"provide_ports", .defaulted⟩, ⟨"require_ports", .defaulted⟩]

instance : Form C Node where
  write n := C.ofFields [
    ("name", C.write n.name),
    ("provide_ports", C.write n.providePorts),
    ("require_ports", C.write n.requirePorts)]
  read? d :=
    match C.fields? Node.documentFields d with
    | some [name, providePorts, requirePorts] => do
      return ⟨← C.required? name, ← C.orElse? [] providePorts, ← C.orElse? [] requirePorts⟩
    | _ => none

end PortWire
