import PortWire.Proofs.Program.Encoding

/-!
# Headers and patches

A header is its seven bytes and nothing behind them: what is decoded was encoded so. A patch writes
a data size into a program in place. It leaves all other bytes alone, and a header that stands there
is the same header with the new size. A patch that is refused leaves the program as it is.
-/

namespace PortWire

namespace LittleEndian

/-- A word of two bytes goes through a 16-bit number. -/
theorem write_ofNat_read_two (low high : UInt8) :
    write 2 (UInt16.ofNat (read [low, high])).toNat = [low, high] := by
  have small : read [low, high] < capacity 2 := read_lt [low, high]
  have range : capacity 2 = 65536 := rfl
  rw [UInt16.toNat_ofNat', Nat.mod_eq_of_lt (by omega)]
  exact write_read [low, high]

/-- A word of four bytes goes through a 32-bit number. -/
theorem write_ofNat_read_four (a b c d : UInt8) :
    write 4 (UInt32.ofNat (read [a, b, c, d])).toNat = [a, b, c, d] := by
  have small : read [a, b, c, d] < capacity 4 := read_lt [a, b, c, d]
  have range : capacity 4 = 4294967296 := rfl
  rw [UInt32.toNat_ofNat', Nat.mod_eq_of_lt (by omega)]
  exact write_read [a, b, c, d]

end LittleEndian

theorem ProgramType.bits_of_ofBits? {b : UInt8} {type : ProgramType} (h : ofBits? b = some type) :
    type.bits = b := by
  simpa using List.find?_some h

namespace Header

/-- The bytes in front of the data size. -/
def front (h : Header) : List UInt8 :=
  LittleEndian.write 2 h.version.toNat ++ [h.type.bits]

theorem length_front (h : Header) : h.front.length = dataSizeOffset :=
  rfl

theorem encode_eq (h : Header) : h.encode = h.front ++ LittleEndian.write 4 h.dataSize.toNat := by
  rw [encode, front, List.append_assoc, List.singleton_append]

/-- What is decoded is in front as it would be encoded. -/
theorem encode_of_decode {bytes : List UInt8} {h : Header} (decoded : decode bytes = .ok h) :
    h.version = currentVersion ∧ bytes = h.encode ++ bytes.drop size := by
  unfold decode at decoded
  split at decoded
  · rename_i v₀ v₁ t d₀ d₁ d₂ d₃ rest
    dsimp only at decoded
    split at decoded
    · cases decoded
    · next hversion =>
      split at decoded
      · cases decoded
      · next type htype =>
        cases decoded
        refine ⟨Decidable.not_not.mp hversion, ?_⟩
        simp only [encode, LittleEndian.write_ofNat_read_two, LittleEndian.write_ofNat_read_four,
          ProgramType.bits_of_ofBits? htype]
        rfl
  · cases decoded

end Header

namespace Program

theorem patchDataSize_append {front slot behind : List UInt8} {offset : Nat}
    (place : front.length = offset + Header.dataSizeOffset) (word : slot.length = 4)
    (size : UInt32) :
    patchDataSize ⟨front ++ slot ++ behind⟩ offset size =
      .ok ⟨front ++ LittleEndian.write 4 size.toNat ++ behind⟩ := by
  have whole : (front ++ slot).length = offset + Header.size := by
    rw [List.length_append, place, word]
    rfl
  have room : offset + Header.size ≤ length ⟨front ++ slot ++ behind⟩ := by
    rw [length, List.length_append, whole]
    exact Nat.le_add_right _ _
  have before : (front ++ slot ++ behind).take (offset + Header.dataSizeOffset) = front := by
    rw [List.append_assoc, List.take_left' place]
  have after : (front ++ slot ++ behind).drop (offset + Header.size) = behind :=
    List.drop_left' whole
  rw [patchDataSize, if_pos room]
  simp only [before, after]

/-- A header that stands in a program keeps all but its data size. -/
theorem patchDataSize_encode (before : List UInt8) (h : Header) (behind : List UInt8)
    (size : UInt32) :
    patchDataSize ⟨before ++ h.encode ++ behind⟩ before.length size =
      .ok ⟨before ++ Header.encode { h with dataSize := size } ++ behind⟩ := by
  have place : (before ++ h.front).length = before.length + Header.dataSizeOffset := by
    rw [List.length_append, Header.length_front]
  have word := LittleEndian.length_write 4 h.dataSize.toNat
  rw [Header.encode_eq, Header.encode_eq, ← List.append_assoc, ← List.append_assoc]
  exact patchDataSize_append place word size

/-- A program with room for a header is cut in front of its data size and behind it. -/
theorem exists_slot {code : List UInt8} {offset : Nat} (room : offset + Header.size ≤ code.length) :
    ∃ front slot behind, code = front ++ slot ++ behind ∧
      front.length = offset + Header.dataSizeOffset ∧ slot.length = 4 := by
  have inside : offset + Header.dataSizeOffset + 4 ≤ code.length := room
  refine ⟨code.take (offset + Header.dataSizeOffset),
    (code.drop (offset + Header.dataSizeOffset)).take 4,
    (code.drop (offset + Header.dataSizeOffset)).drop 4, ?_, ?_, ?_⟩
  · rw [List.append_assoc, List.take_append_drop, List.take_append_drop]
  · exact List.length_take_of_le (by omega)
  · exact List.length_take_of_le (by rw [List.length_drop]; omega)

theorem patchDataSize_ok_iff {p : Program} {offset : Nat} {size : UInt32} :
    (∃ q, p.patchDataSize offset size = .ok q) ↔ offset + Header.size ≤ p.length := by
  unfold patchDataSize
  split
  · next room => exact iff_of_true ⟨_, rfl⟩ room
  · next short =>
    refine iff_of_false ?_ short
    rintro ⟨q, h⟩
    cases h

/-- A patch that is made leaves the length and all bytes but those of the data size. -/
theorem patchDataSize_eq_ok {p q : Program} {offset : Nat} {size : UInt32}
    (h : p.patchDataSize offset size = .ok q) :
    q.length = p.length ∧
      (∀ i, i < offset + Header.dataSizeOffset ∨ offset + Header.size ≤ i →
        q.code[i]? = p.code[i]?) ∧
      (q.code.drop (offset + Header.dataSizeOffset)).take 4 =
        LittleEndian.write 4 size.toNat := by
  obtain ⟨code⟩ := p
  obtain ⟨front, slot, behind, rfl, place, word⟩ := exists_slot (patchDataSize_ok_iff.mp ⟨q, h⟩)
  rw [patchDataSize_append place word] at h
  cases h
  have written := LittleEndian.length_write 4 size.toNat
  have old : (front ++ slot).length = offset + Header.size := by
    rw [List.length_append, place, word]
    rfl
  have new : (front ++ LittleEndian.write 4 size.toNat).length = offset + Header.size := by
    rw [List.length_append, place, written]
    rfl
  refine ⟨?_, ?_, ?_⟩
  · simp only [length, List.length_append, written, word]
  · rintro i (inFront | afterwards)
    · rw [← place] at inFront
      rw [List.append_assoc, List.append_assoc, List.getElem?_append_left inFront,
        List.getElem?_append_left inFront]
    · rw [List.getElem?_append_right (by omega), List.getElem?_append_right (by omega), old, new]
  · rw [List.append_assoc, List.drop_left' place, List.take_left' written]

/-- The header that the bytes from `offset` on are decoded to is the same but for its data size. -/
theorem decode_patchDataSize {p q : Program} {offset : Nat} {size : UInt32}
    (h : p.patchDataSize offset size = .ok q) {header : Header}
    (decoded : Header.decode (p.code.drop offset) = .ok header) :
    Header.decode (q.code.drop offset) = .ok { header with dataSize := size } := by
  obtain ⟨code⟩ := p
  have room : offset + Header.size ≤ code.length := patchDataSize_ok_iff.mp ⟨q, h⟩
  obtain ⟨current, stands⟩ := Header.encode_of_decode decoded
  have place : (code.take offset).length = offset := List.length_take_of_le (by omega)
  have whole : code = code.take offset ++ header.encode ++ (code.drop offset).drop Header.size := by
    rw [List.append_assoc, ← stands, List.take_append_drop]
  have patched := patchDataSize_encode (code.take offset) header
    ((code.drop offset).drop Header.size) size
  rw [← whole, place, h] at patched
  cases patched
  rw [List.append_assoc, List.drop_left' place]
  exact Header.decode_encode_append (h := { header with dataSize := size }) current _

theorem patch_eq_ok_iff {p q : Program} {offset : Nat} {size : UInt32} :
    p.patch offset size = (.ok (), q) ↔ p.patchDataSize offset size = .ok q := by
  unfold patch
  split
  · next h => simp [h]
  · next h => simp [h]

theorem patch_eq_error {p q : Program} {offset : Nat} {size : UInt32} {fault : ProgramFault}
    (h : p.patch offset size = (.error fault, q)) :
    q = p ∧ fault = .truncatedHeader (p.length - offset) := by
  unfold patch patchDataSize at h
  by_cases room : offset + Header.size ≤ p.length
  · simp only [if_pos room] at h
    cases h
  · simp only [if_neg room] at h
    cases h
    exact ⟨rfl, rfl⟩

end Program

/-- A header of this version is decoded from its bytes, whatever is behind them, and the bytes of a
header that was decoded are the seven in front. A patch is made exactly where there is room for a
whole header. It keeps the length and every byte outside the data size, which then stands there; a
header that began at the offset still does, with the new size. A patch that is refused reports how
many bytes there are from the offset on, and leaves the program as it is. -/
theorem Program.headers_and_patches_exact :
    (∀ (h : Header) (rest : List UInt8), h.version = Header.currentVersion →
        Header.decode (h.encode ++ rest) = .ok h) ∧
      (∀ bytes h, Header.decode bytes = .ok h → h.encode = bytes.take Header.size) ∧
      ∀ (p : Program) (offset : Nat) (size : UInt32),
        ((∃ q, p.patch offset size = (.ok (), q)) ↔ offset + Header.size ≤ p.length) ∧
          (∀ q, p.patch offset size = (.ok (), q) →
            q.length = p.length ∧
              (∀ i, i < offset + Header.dataSizeOffset ∨ offset + Header.size ≤ i →
                q.code[i]? = p.code[i]?) ∧
              (q.code.drop (offset + Header.dataSizeOffset)).take 4 =
                LittleEndian.write 4 size.toNat ∧
              ∀ h, Header.decode (p.code.drop offset) = .ok h →
                Header.decode (q.code.drop offset) = .ok { h with dataSize := size }) ∧
          ∀ fault q, p.patch offset size = (.error fault, q) →
            q = p ∧ fault = .truncatedHeader (p.length - offset) := by
  refine ⟨fun h rest current => Header.decode_encode_append current rest, ?_, ?_⟩
  · intro bytes h decoded
    rw [(Header.encode_of_decode decoded).2, List.take_left' h.length_encode]
  · intro p offset size
    refine ⟨?_, ?_, ?_⟩
    · simp only [Program.patch_eq_ok_iff, Program.patchDataSize_ok_iff]
    · intro q patched
      have made := Program.patch_eq_ok_iff.mp patched
      obtain ⟨sameLength, others, written⟩ := Program.patchDataSize_eq_ok made
      exact ⟨sameLength, others, written, fun h => Program.decode_patchDataSize made⟩
    · intro fault q refused
      exact Program.patch_eq_error refused

/-- A header behind one other byte gets four different data bytes; from two bytes further on there
is no room for a header. -/
theorem Program.header_behind_a_byte_patched :
    let p : Program := ⟨[0xAA, 1, 0, 1, 9, 8, 7, 6, 0x10]⟩
    let q : Program := ⟨[0xAA, 1, 0, 1, 0xAA, 0xBB, 0xCC, 0xDD, 0x10]⟩
    p.patch 1 0xDDCCBBAA = (.ok (), q) ∧
      Header.decode (p.code.drop 1) = .ok ⟨1, .pack, 0x06070809⟩ ∧
      Header.decode (q.code.drop 1) = .ok ⟨1, .pack, 0xDDCCBBAA⟩ ∧
      (Header.mk 1 .pack 0xDDCCBBAA).encode = (q.code.drop 1).take 7 ∧
      (∀ i, i < 4 ∨ 8 ≤ i → q.code[i]? = p.code[i]?) ∧
      p.patch 3 0xDDCCBBAA = (.error (.truncatedHeader 6), p) := by
  intro p q
  have patched : p.patch 1 0xDDCCBBAA = (.ok (), q) := rfl
  have stands : Header.decode (p.code.drop 1) = .ok ⟨1, .pack, 0x06070809⟩ := rfl
  have refused : p.patch 3 0xDDCCBBAA = (.error (.truncatedHeader 6), p) := rfl
  obtain ⟨_, spelled, patches⟩ := Program.headers_and_patches_exact
  obtain ⟨_, others, _, same⟩ := (patches p 1 0xDDCCBBAA).2.1 q patched
  exact ⟨patched, stands, same _ stands, spelled _ _ (same _ stands), others, refused⟩

end PortWire
