import PortWire.Exchange.Form
import PortWire.FileMap

/-!
# Documents of files and layouts

A file may leave out its type and its digest. A layout has no defaults inside: it is given whole.
-/

namespace PortWire

variable {C : Codec}

def FileInfo.documentFields : List Field :=
  [⟨"address", .refused⟩, ⟨"length", .refused⟩, ⟨"name", .refused⟩, ⟨"digest_type", .defaulted⟩]

instance : Form C FileInfo where
  write f := C.ofFields [
    ("address", C.write f.address),
    ("length", C.write f.length),
    ("name", C.write f.name),
    ("digest_type", C.write f.digest)]
  read? d :=
    match C.fields? FileInfo.documentFields d with
    | some [address, length, name, digest] => do
      return ⟨← C.required? address, ← C.required? length, ← C.required? name,
        ← C.orElse? .none digest⟩
    | _ => none

def File.documentFields : List Field :=
  [⟨"info", .refused⟩, ⟨"file_type", .defaulted⟩]

instance : Form C File where
  write f := C.ofFields [("info", C.write f.info), ("file_type", C.write f.type)]
  read? d :=
    match C.fields? File.documentFields d with
    | some [info, type] => do
      return ⟨← C.required? info, ← C.orElse? .unknown type⟩
    | _ => none

/-- The number of a file is a word of 64 bits. -/
instance : Form C FileId where
  write id := .number (.ofUInt64 (UInt64.ofNat id.number))
  read? d := (C.word? 64 d).map FileId.mk

def Region.documentFields : List Field :=
  [⟨"start", .refused⟩, ⟨"end", .refused⟩, ⟨"boundary", .refused⟩]

instance : Form C Region where
  write r := C.ofFields [
    ("start", C.write r.start),
    ("end", C.write r.stop),
    ("boundary", C.write r.boundary)]
  read? d :=
    match C.fields? Region.documentFields d with
    | some [start, stop, boundary] => do
      return ⟨← C.required? start, ← C.required? stop, ← C.required? boundary⟩
    | _ => none

def Layout.documentFields : List Field :=
  [⟨"port_data", .refused⟩, ⟨"definition", .refused⟩, ⟨"user_data", .refused⟩]

instance : Form C Layout where
  write l := C.ofFields [
    ("port_data", C.write l.portData),
    ("definition", C.write l.definition),
    ("user_data", C.write l.userData)]
  read? d :=
    match C.fields? Layout.documentFields d with
    | some [portData, definition, userData] => do
      return ⟨← C.required? portData, ← C.required? definition, ← C.required? userData⟩
    | _ => none

end PortWire
