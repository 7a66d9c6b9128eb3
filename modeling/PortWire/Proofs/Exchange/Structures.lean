import PortWire.Exchange.Files
import PortWire.Exchange.Program
import PortWire.Exchange.Signature
import PortWire.Proofs.Exchange.Forms

/-!
# Structures that lose nothing

Files, layouts, signatures, decoded programs and limits come back as they were written: each of
their fields is given under its own name. An optional field is written as null when it is absent,
and that is read as absent again because nothing that can stand there is null itself.
-/

namespace PortWire

open Codec Form

variable {C : Codec} [C.Derived]

/-! ## Files and layouts -/

instance : Lawful C FileInfo 1 where
  depth_le f := depth_ofFields_le (by simp [depth_write_leaf])
  read_shown := by
    intro f d shown
    obtain ⟨ds, found, shows⟩ := fields_written FileInfo.documentFields shown (by decide) rfl
    simp only [List.map_cons, List.map_nil, showsItems_cons, showsItems_nil] at shows
    obtain ⟨addressPart, _, rfl, address, lengthPart, _, rfl, length, namePart, _, rfl, name,
      digestPart, _, rfl, digest, rfl⟩ := shows
    simp only [Codec.read?, Form.read?, found, List.map_cons, List.map_nil, required?_shown address,
      required?_shown length, required?_shown name, orElse?_shown _ digest]
    rfl

instance : Lawful C File 2 where
  depth_le f := depth_ofFields_le (by simp [depth_write_le])
  read_shown := by
    intro f d shown
    obtain ⟨ds, found, shows⟩ := fields_written File.documentFields shown (by decide) rfl
    simp only [List.map_cons, List.map_nil, showsItems_cons, showsItems_nil] at shows
    obtain ⟨infoPart, _, rfl, info, typePart, _, rfl, type, rfl⟩ := shows
    simp only [Codec.read?, Form.read?, found, List.map_cons, List.map_nil, required?_shown info,
      orElse?_shown _ type]
    rfl

instance : Lawful C Region 1 where
  depth_le r := depth_ofFields_le (by simp [depth_write_leaf])
  read_shown := by
    intro r d shown
    obtain ⟨ds, found, shows⟩ := fields_written Region.documentFields shown (by decide) rfl
    simp only [List.map_cons, List.map_nil, showsItems_cons, showsItems_nil] at shows
    obtain ⟨startPart, _, rfl, start, stopPart, _, rfl, stop, boundaryPart, _, rfl, boundary,
      rfl⟩ := shows
    simp only [Codec.read?, Form.read?, found, List.map_cons, List.map_nil, required?_shown start,
      required?_shown stop, required?_shown boundary]
    rfl

instance : Lawful C Layout 2 where
  depth_le l := depth_ofFields_le (by simp [depth_write_le])
  read_shown := by
    intro l d shown
    obtain ⟨ds, found, shows⟩ := fields_written Layout.documentFields shown (by decide) rfl
    simp only [List.map_cons, List.map_nil, showsItems_cons, showsItems_nil] at shows
    obtain ⟨portDataPart, _, rfl, portData, definitionPart, _, rfl, definition, userDataPart, _,
      rfl, userData, rfl⟩ := shows
    simp only [Codec.read?, Form.read?, found, List.map_cons, List.map_nil,
      required?_shown portData, required?_shown definition, required?_shown userData]
    rfl

/-! ## Signatures -/

instance : Lawful C DataElement 1 where
  depth_le e := depth_ofFields_le (by simp [depth_write_leaf])
  read_shown := by
    intro e d shown
    obtain ⟨ds, found, shows⟩ := fields_written DataElement.documentFields shown (by decide) rfl
    simp only [List.map_cons, List.map_nil, showsItems_cons, showsItems_nil] at shows
    obtain ⟨baseTypePart, _, rfl, baseType, arrayLenPart, _, rfl, arrayLen, dynamicPart, _, rfl,
      dynamic, rfl⟩ := shows
    simp only [Codec.read?, Form.read?, found, List.map_cons, List.map_nil,
      required?_shown baseType, orElse?_shown _ arrayLen, orElse?_shown _ dynamic]
    rfl

instance : Lawful C Port 2 where
  depth_le p := depth_ofFields_le (by simp [depth_write_le])
  read_shown := by
    intro p d shown
    obtain ⟨ds, found, shows⟩ := fields_written Port.documentFields shown (by decide) rfl
    simp only [List.map_cons, List.map_nil, showsItems_cons, showsItems_nil] at shows
    obtain ⟨namePart, _, rfl, name, elementPart, _, rfl, element, rfl⟩ := shows
    simp only [Codec.read?, Form.read?, found, List.map_cons, List.map_nil, required?_shown name,
      required?_shown element]
    rfl

instance : Lawful C Node 4 where
  depth_le n := depth_ofFields_le (by simp [depth_write_le])
  read_shown := by
    intro n d shown
    obtain ⟨ds, found, shows⟩ := fields_written Node.documentFields shown (by decide) rfl
    simp only [List.map_cons, List.map_nil, showsItems_cons, showsItems_nil] at shows
    obtain ⟨namePart, _, rfl, name, providePortsPart, _, rfl, providePorts, requirePortsPart, _,
      rfl, requirePorts, rfl⟩ := shows
    simp only [Codec.read?, Form.read?, found, List.map_cons, List.map_nil, required?_shown name,
      orElse?_shown _ providePorts, orElse?_shown _ requirePorts]
    rfl

/-! ## Programs and limits -/

instance : Lawful C Header 1 where
  depth_le h := depth_ofFields_le (by simp [depth_write_leaf])
  read_shown := by
    intro h d shown
    obtain ⟨ds, found, shows⟩ := fields_written Header.documentFields shown (by decide) rfl
    simp only [List.map_cons, List.map_nil, showsItems_cons, showsItems_nil] at shows
    obtain ⟨versionPart, _, rfl, version, typePart, _, rfl, type, dataSizePart, _, rfl, dataSize,
      rfl⟩ := shows
    simp only [Codec.read?, Form.read?, found, List.map_cons, List.map_nil, required?_shown version,
      required?_shown type, required?_shown dataSize]
    rfl

instance : Lawful C ArrayPart 1 where
  depth_le a := depth_ofFields_le (by
    simp [depth_write_leaf, Nat.le_zero.mp (depth_option_le a.length (Nat.le_refl 0))])
  read_shown := by
    intro a d shown
    obtain ⟨ds, found, shows⟩ := fields_written ArrayPart.documentFields shown (by decide) rfl
    simp only [List.map_cons, List.map_nil, showsItems_cons, showsItems_nil] at shows
    obtain ⟨widthPart, _, rfl, width, dynamicPart, _, rfl, dynamic, lengthPart, _, rfl, length,
      rfl⟩ := shows
    have present : ∀ n : UInt32, C.write n ≠ .null := fun _ => Document.noConfusion
    simp only [Codec.read?, Form.read?, found, List.map_cons, List.map_nil, required?_shown width,
      required?_shown dynamic, orElse?_option present none length]
    rfl

instance : Lawful C LocatedElement 2 where
  depth_le e := depth_ofFields_le (by simp [depth_write_leaf, depth_option_le])
  read_shown := by
    intro e d shown
    obtain ⟨ds, found, shows⟩ := fields_written LocatedElement.documentFields shown (by decide) rfl
    simp only [List.map_cons, List.map_nil, showsItems_cons, showsItems_nil] at shows
    obtain ⟨offsetPart, _, rfl, offset, opcodePart, _, rfl, opcode, variantPart, _, rfl, variant,
      arrayPart, _, rfl, array, rfl⟩ := shows
    have present : ∀ a : ArrayPart, C.write a ≠ .null := fun _ => ofFields_ne_null
    simp only [Codec.read?, Form.read?, found, List.map_cons, List.map_nil, required?_shown offset,
      required?_shown opcode, required?_shown variant, orElse?_option present none array]
    rfl

instance : Lawful C DecodedProgram 4 where
  depth_le p := depth_ofFields_le (by simp [depth_write_le])
  read_shown := by
    intro p d shown
    obtain ⟨ds, found, shows⟩ := fields_written DecodedProgram.documentFields shown (by decide) rfl
    simp only [List.map_cons, List.map_nil, showsItems_cons, showsItems_nil] at shows
    obtain ⟨headerPart, _, rfl, header, elementsPart, _, rfl, elements, rfl⟩ := shows
    simp only [Codec.read?, Form.read?, found, List.map_cons, List.map_nil, required?_shown header,
      required?_shown elements]
    rfl

instance : Lawful C Limits 1 where
  depth_le l := depth_ofFields_le (by simp [depth_write_leaf])
  read_shown := by
    intro l d shown
    obtain ⟨ds, found, shows⟩ := fields_written Limits.documentFields shown (by decide) rfl
    simp only [List.map_cons, List.map_nil, showsItems_cons, showsItems_nil] at shows
    obtain ⟨maxDepthPart, _, rfl, maxDepth, maxArrayLenPart, _, rfl, maxArrayLen, rfl⟩ := shows
    simp only [Codec.read?, Form.read?, found, List.map_cons, List.map_nil,
      orElse?_shown _ maxDepth, orElse?_shown _ maxArrayLen]
    rfl

end PortWire
