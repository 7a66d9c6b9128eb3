import PortWire.Program

/-!
# Reading encoded programs

What is encoded is read back as it was, whatever follows it. For elements this needs the shape that
the decoder itself produces: an instruction that is no array instruction, and a length that is
there exactly in fixed arrays and fits its width.
-/

namespace PortWire

namespace Header

theorem decode_encode_append {h : Header} (current : h.version = currentVersion)
    (rest : List UInt8) : decode (h.encode ++ rest) = .ok h := by
  obtain ⟨version, type, dataSize⟩ := h
  obtain rfl : version = currentVersion := current
  have hversion : UInt16.ofNat (LittleEndian.read (LittleEndian.write 2 currentVersion.toNat)) =
      currentVersion := by decide
  have htype : ProgramType.ofBits? type.bits = some type := by cases type <;> rfl
  have hsize := LittleEndian.read_write 4 dataSize.toNat
  have hlt : dataSize.toNat < LittleEndian.capacity 4 := dataSize.toNat_lt
  rw [Nat.mod_eq_of_lt hlt] at hsize
  simp only [LittleEndian.write] at hversion hsize
  simp only [encode, LittleEndian.write, List.cons_append, List.nil_append, decode, hversion, hsize,
    htype, UInt32.ofNat_toNat, ne_eq, not_true_eq_false, if_false]

theorem length_encode (h : Header) : h.encode.length = size := by
  simp [encode, size]

/-- The data size of a header is the word that stands at its place. -/
theorem dataSize_of_decode {bytes : List UInt8} {h : Header} (decoded : decode bytes = .ok h) :
    h.dataSize = UInt32.ofNat (LittleEndian.read ((bytes.drop dataSizeOffset).take 4)) := by
  unfold decode at decoded
  split at decoded
  · dsimp only at decoded
    split at decoded
    · cases decoded
    · split at decoded
      · cases decoded
      · cases decoded
        rfl
  · cases decoded

end Header

namespace ArrayPart

/-- A fixed array has a length that its width can carry, a dynamic one has none. -/
def Proper (a : ArrayPart) : Prop :=
  match a.length with
  | none => a.dynamic = true
  | some n => a.dynamic = false ∧ n ≤ a.width.maxLen

instance : (a : ArrayPart) → Decidable a.Proper
  | ⟨_, dynamic, none⟩ => inferInstanceAs (Decidable (dynamic = true))
  | ⟨width, dynamic, some n⟩ => inferInstanceAs (Decidable (dynamic = false ∧ n ≤ width.maxLen))

theorem decode_encode_append {a : ArrayPart} (proper : a.Proper) (offset : UInt64)
    (rest : List UInt8) : decode offset (a.encode ++ rest) = .ok (a, rest) := by
  obtain ⟨width, dynamic, length⟩ := a
  cases length with
  | none =>
    obtain rfl : dynamic = true := proper
    simp [encode, decode, Instruction.decode_encode]
  | some n =>
    obtain ⟨hdynamic, hn⟩ := proper
    simp only at hdynamic hn
    subst hdynamic
    have hread := width.read?_write_of_le hn rest
    have hdrop : (width.write n ++ rest).drop width.bytes = rest := by
      rw [List.drop_append_of_le_length (by simp), List.drop_of_length_le (by simp),
        List.nil_append]
    simp [encode, decode, Instruction.decode_encode, hread, hdrop]

end ArrayPart

namespace Element

/-- The shape of the elements that a decoder yields. -/
structure Proper (e : Element) : Prop where
  opcode : e.opcode ≠ .array
  array : ∀ a ∈ e.array, a.Proper

instance (e : Element) : Decidable e.Proper :=
  decidable_of_iff (e.opcode ≠ .array ∧ ∀ a ∈ e.array, a.Proper)
    ⟨fun h => ⟨h.1, h.2⟩, fun h => ⟨h.opcode, h.array⟩⟩

theorem decode_encode_append {e : Element} (proper : e.Proper) (offset : UInt64)
    (rest : List UInt8) :
    ∃ b tail, e.encode ++ rest = b :: tail ∧ decode offset b tail = .ok (e, rest) := by
  obtain ⟨opcode, variant, array⟩ := e
  have hopcode := proper.opcode
  simp only at hopcode
  cases array with
  | none =>
    refine ⟨_, rest, rfl, ?_⟩
    simp [decode, Instruction.decode_encode, hopcode]
  | some a =>
    refine ⟨_, a.encode ++ rest, rfl, ?_⟩
    have harray := ArrayPart.decode_encode_append (proper.array a rfl) (offset + 1) rest
    simp [decode, Instruction.decode_encode, hopcode, harray]

end Element

namespace LocatedElement

theorem decodeFrom_cons {offset : UInt64} {b : UInt8} {code rest : List UInt8} {e : Element}
    (h : Element.decode offset b code = .ok (e, rest)) (found : List LocatedElement) :
    decodeFrom offset found (b :: code) =
      decodeFrom (offset + UInt64.ofNat e.size) (⟨e, offset⟩ :: found) rest := by
  rw [decodeFrom]
  split
  · rename_i err herr
    rw [h] at herr
    cases herr
  · rename_i e' rest' hok
    rw [h] at hok
    cases hok
    rfl

theorem decodeFrom_encode_append {e : Element} (proper : e.Proper) (offset : UInt64)
    (found : List LocatedElement) (rest : List UInt8) :
    decodeFrom offset found (e.encode ++ rest) =
      decodeFrom (offset + UInt64.ofNat e.size) (⟨e, offset⟩ :: found) rest := by
  obtain ⟨b, tail, hcode, hdecode⟩ := Element.decode_encode_append proper offset rest
  rw [hcode, decodeFrom_cons hdecode]

end LocatedElement

namespace DecodedProgram

/-- An image of a header and one element. -/
theorem decode_single {h : Header} (current : h.version = Header.currentVersion) {e : Element}
    (proper : e.Proper) :
    decode (h.encode ++ e.encode) = .ok ⟨h, [⟨e, UInt64.ofNat Header.size⟩]⟩ := by
  have hdrop : (h.encode ++ e.encode).drop Header.size = e.encode ++ [] := by
    rw [List.append_nil, ← Header.length_encode h, List.drop_left]
  have hstream : LocatedElement.decodeStream (UInt64.ofNat Header.size) (e.encode ++ []) =
      .ok [⟨e, UInt64.ofNat Header.size⟩] := by
    rw [LocatedElement.decodeStream, LocatedElement.decodeFrom_encode_append proper,
      LocatedElement.decodeFrom]
    rfl
  rw [decode, Header.decode_encode_append current, hdrop, hstream]

end DecodedProgram

end PortWire
