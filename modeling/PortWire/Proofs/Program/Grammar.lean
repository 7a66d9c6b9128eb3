import PortWire.Proofs.Program.Encoding

/-!
# The grammar of instruction streams

The decoder accepts the concatenations of encoded elements and nothing else. Since it takes a length
in whatever width stands before it, also in one wider than the length needs, encoding a decoded
stream gives back its bytes. The offsets that come with the elements are those of a running length.
-/

namespace PortWire

namespace ArrayPart

theorem length_encode (a : ArrayPart) : a.encode.length = a.size := by
  obtain ⟨width, dynamic, length⟩ := a
  cases length with
  | none => rfl
  | some n => simp [encode, size, Nat.add_comm]

/-- What is decoded is in front of the rest as it would be encoded. -/
theorem encode_of_decode {offset : UInt64} {bs rest : List UInt8} {a : ArrayPart}
    (h : decode offset bs = .ok (a, rest)) : a.Proper ∧ bs = a.encode ++ rest := by
  unfold decode at h
  split at h
  · cases h
  · rename_i b tail
    split at h
    · cases h
    · rename_i i hi
      split at h
      · cases h
      · rename_i hopcode
        have hopcode : i.opcode = .array := Decidable.not_not.mp hopcode
        split at h
        · cases h
        · rename_i width hwidth
          have hvariant := LengthWidth.variant_of_ofVariant? hwidth
          have hbyte := Instruction.encode_of_decode hi
          split at h
          · rename_i hflag
            cases h
            refine ⟨rfl, ?_⟩
            rw [encode, hvariant, ← hopcode, ← hflag, hbyte]
            rfl
          · rename_i hflag
            have hflag : i.flag = false := Bool.eq_false_iff.mpr hflag
            split at h
            · cases h
            · rename_i n hn
              cases h
              refine ⟨⟨rfl, LengthWidth.le_maxLen_of_read? hn⟩, ?_⟩
              simp only [encode]
              rw [hvariant, ← hopcode, ← hflag, hbyte, LengthWidth.write_of_read? hn,
                List.cons_append, List.take_append_drop]

end ArrayPart

namespace Element

theorem length_encode (e : Element) : e.encode.length = e.size := by
  obtain ⟨opcode, variant, array⟩ := e
  cases array with
  | none => rfl
  | some a => simp [encode, size, ArrayPart.length_encode, Nat.add_comm]

theorem encode_of_decode {offset : UInt64} {b : UInt8} {bs rest : List UInt8} {e : Element}
    (h : decode offset b bs = .ok (e, rest)) : e.Proper ∧ b :: bs = e.encode ++ rest := by
  unfold decode at h
  split at h
  · cases h
  · rename_i i hi
    have hbyte := Instruction.encode_of_decode hi
    split at h
    · cases h
    · rename_i hopcode
      split at h
      · rename_i hflag
        split at h
        · cases h
        · rename_i a rest' ha
          cases h
          obtain ⟨proper, hbs⟩ := ArrayPart.encode_of_decode ha
          refine ⟨⟨hopcode, ?_⟩, ?_⟩
          · rintro a' ⟨⟩
            exact proper
          · rw [hbs, ← hbyte, encode]
            simp [← hflag]
      · rename_i hflag
        cases h
        refine ⟨⟨hopcode, ?_⟩, ?_⟩
        · rintro a' ⟨⟩
        · have hflag : i.flag = false := Bool.eq_false_iff.mpr hflag
          rw [← hbyte, encode]
          simp [← hflag]

end Element

/-- The bytes of elements with nothing between them. -/
def encodeStream (es : List Element) : List UInt8 :=
  es.flatMap Element.encode

namespace LocatedElement

/-- Elements one behind the other, the first of them at `offset`. -/
def locate (offset : UInt64) : List Element → List LocatedElement
  | [] => []
  | e :: rest => ⟨e, offset⟩ :: locate (offset + UInt64.ofNat e.size) rest

@[simp]
theorem map_locate (offset : UInt64) (es : List Element) :
    (locate offset es).map toElement = es := by
  induction es generalizing offset with
  | nil => rfl
  | cons e rest ih => simp [locate, ih]

/-- The decoder comes to what stands behind the elements. -/
theorem decodeFrom_encodeStream_append {es : List Element} (proper : ∀ e ∈ es, e.Proper)
    (offset : UInt64) (found : List LocatedElement) (rest : List UInt8) :
    decodeFrom offset found (encodeStream es ++ rest) =
      decodeFrom (offset + UInt64.ofNat (encodeStream es).length)
        ((locate offset es).reverse ++ found) rest := by
  induction es generalizing offset found with
  | nil => simp [encodeStream, locate]
  | cons e others ih =>
    have hstream : encodeStream (e :: others) = e.encode ++ encodeStream others := rfl
    rw [hstream, List.append_assoc, decodeFrom_encode_append (proper e List.mem_cons_self),
      ih fun e' he' => proper e' (List.mem_cons_of_mem e he')]
    simp [locate, Element.length_encode, UInt64.ofNat_add, UInt64.add_assoc]

theorem decodeFrom_encodeStream {es : List Element} (proper : ∀ e ∈ es, e.Proper)
    (offset : UInt64) (found : List LocatedElement) :
    decodeFrom offset found (encodeStream es) = .ok (found.reverse ++ locate offset es) := by
  have all := decodeFrom_encodeStream_append proper offset found []
  rw [List.append_nil] at all
  rw [all, decodeFrom, List.reverse_append, List.reverse_reverse]

theorem decodeFrom_eq_ok {offset : UInt64} {found elements : List LocatedElement}
    {code : List UInt8} (h : decodeFrom offset found code = .ok elements) :
    ∃ es, (∀ e ∈ es, e.Proper) ∧ code = encodeStream es ∧
      elements = found.reverse ++ locate offset es := by
  fun_induction decodeFrom offset found code with
  | case1 offset found =>
    cases h
    exact ⟨[], by simp, rfl, by simp [locate]⟩
  | case2 offset found b rest err herr => cases h
  | case3 offset found b rest e rest' hdecode _ ih =>
    obtain ⟨es, hproper, hcode, helements⟩ := ih h
    obtain ⟨proper, hbytes⟩ := Element.encode_of_decode hdecode
    refine ⟨e :: es, ?_, ?_, ?_⟩
    · intro e' he'
      rcases List.mem_cons.mp he' with rfl | he'
      · exact proper
      · exact hproper e' he'
    · rw [hbytes, hcode]
      rfl
    · rw [helements]
      simp [locate]

/-- The decoder inverts the encoding of a stream, and accepts nothing else. -/
theorem decodeStream_eq_ok {base : UInt64} {code : List UInt8} {elements : List LocatedElement} :
    decodeStream base code = .ok elements ↔
      ∃ es, (∀ e ∈ es, e.Proper) ∧ code = encodeStream es ∧ elements = locate base es := by
  constructor
  · exact fun h => decodeFrom_eq_ok h
  · rintro ⟨es, proper, rfl, rfl⟩
    exact decodeFrom_encodeStream proper base []

/-- Encoding what was decoded gives back the bytes, and each element is as far behind `base` as the
encodings of the earlier ones are long. -/
structure Spells (base : Nat) (code : List UInt8) (elements : List LocatedElement) : Prop where
  proper : ∀ e ∈ elements, e.Proper
  bytes : code = encodeStream (elements.map toElement)
  offsets : ∀ before e behind, elements = before ++ e :: behind →
    e.offset.toNat = base + (encodeStream (before.map toElement)).length

theorem offset_of_locate {offset : UInt64} {es : List Element} {before behind : List LocatedElement}
    {e : LocatedElement} (h : locate offset es = before ++ e :: behind) :
    e.offset = offset + UInt64.ofNat (encodeStream (before.map toElement)).length := by
  induction before generalizing offset es with
  | nil =>
    cases es with
    | nil => cases h
    | cons first rest =>
      cases h
      simp [encodeStream]
  | cons first before ih =>
    cases es with
    | nil => cases h
    | cons x rest =>
      rw [locate, List.cons_append, List.cons.injEq] at h
      obtain ⟨rfl, h⟩ := h
      rw [ih h]
      simp [encodeStream, Element.length_encode, UInt64.ofNat_add, UInt64.add_assoc]

theorem spells_locate {base : UInt64} {es : List Element} (proper : ∀ e ∈ es, e.Proper)
    (room : base.toNat + (encodeStream es).length < UInt64.size) :
    Spells base.toNat (encodeStream es) (locate base es) := by
  refine ⟨?_, by rw [map_locate], ?_⟩
  · intro e he
    have he : e.toElement ∈ (locate base es).map toElement := List.mem_map_of_mem he
    rw [map_locate] at he
    exact proper e.toElement he
  · intro before e behind h
    have hes : es = before.map toElement ++ e.toElement :: behind.map toElement := by
      rw [← map_locate base es, h, List.map_append, List.map_cons]
    have hlength : (encodeStream (before.map toElement)).length ≤ (encodeStream es).length := by
      rw [hes, encodeStream, encodeStream, List.flatMap_append, List.length_append]
      exact Nat.le_add_right _ _
    rw [offset_of_locate h, UInt64.toNat_add, UInt64.toNat_ofNat', Nat.add_mod_mod]
    exact Nat.mod_eq_of_lt (Nat.lt_of_le_of_lt (Nat.add_le_add_left hlength _) room)

/-- The offsets are determined by the elements and the place of the first. -/
theorem Spells.eq_locate {base : UInt64} {code : List UInt8} {elements : List LocatedElement}
    (spells : Spells base.toNat code elements) (room : base.toNat + code.length < UInt64.size) :
    elements = locate base (elements.map toElement) := by
  induction elements generalizing base code with
  | nil => rfl
  | cons e rest ih =>
    have hcode : code = e.encode ++ encodeStream (rest.map toElement) := spells.bytes
    have hlength : code.length = e.size + (encodeStream (rest.map toElement)).length := by
      rw [hcode, List.length_append, Element.length_encode]
    have hoffset : e.offset = base := UInt64.toNat_inj.mp (spells.offsets [] e rest rfl)
    have hnext : (base + UInt64.ofNat e.size).toNat = base.toNat + e.size := by
      rw [UInt64.toNat_add, UInt64.toNat_ofNat', Nat.add_mod_mod]
      exact Nat.mod_eq_of_lt (by simp only [UInt64.size] at room; omega)
    -- There is room for the whole code, so the offset of the rest has not wrapped around.
    have hrest : Spells (base + UInt64.ofNat e.size).toNat (encodeStream (rest.map toElement))
        rest := by
      refine ⟨fun e' he' => spells.proper e' (List.mem_cons_of_mem e he'), rfl, ?_⟩
      intro before e' behind h
      rw [spells.offsets (e :: before) e' behind (by rw [h, List.cons_append]), hnext]
      simp [encodeStream, Element.length_encode, Nat.add_assoc]
    have hroom : (base + UInt64.ofNat e.size).toNat +
        (encodeStream (rest.map toElement)).length < UInt64.size := by omega
    rw [List.map_cons, locate, ← ih hrest hroom, ← hoffset]

/-- Decoding succeeds on the streams of proper elements and on no other bytes, and what it yields is
the one reading of the stream: its elements with their offsets. Whatever elements a stream was
encoded from, also with lengths in wider fields than they need, come back. -/
theorem decodeStream_grammar {base : UInt64} {code : List UInt8}
    (room : base.toNat + code.length < UInt64.size) :
    (∀ elements, decodeStream base code = .ok elements ↔ Spells base.toNat code elements) ∧
      ∀ es : List Element, (∀ e ∈ es, e.Proper) → code = encodeStream es →
        ∃ elements, decodeStream base code = .ok elements ∧ elements.map toElement = es := by
  constructor
  · intro elements
    rw [decodeStream_eq_ok]
    constructor
    · rintro ⟨es, proper, rfl, rfl⟩
      exact spells_locate proper room
    · intro spells
      refine ⟨elements.map toElement, ?_, spells.bytes, spells.eq_locate room⟩
      intro e he
      obtain ⟨e', he', rfl⟩ := List.mem_map.mp he
      exact spells.proper e' he'
  · intro es proper hcode
    exact ⟨locate base es, decodeStream_eq_ok.mpr ⟨es, proper, hcode, rfl⟩, map_locate base es⟩

/-- The length 3 would have fitted one byte, but comes in two. -/
theorem decodeStream_grammar_wide :
    let code : List UInt8 := [0x89, 0x0A, 0x03, 0x00, 0x30, 0xE0, 0x82]
    let es : List Element :=
      [⟨.pack, .u16, some ⟨.u16, false, some 3⟩⟩, ⟨.unpack, .s32, none⟩,
        ⟨.unpack, .str, some ⟨.u8, true, none⟩⟩]
    (7 : UInt64).toNat + code.length < UInt64.size ∧ (∀ e ∈ es, e.Proper) ∧
      code = encodeStream es ∧
      ∃ elements, decodeStream 7 code = .ok elements ∧ elements.map toElement = es ∧
        Spells 7 code elements := by
  intro code es
  have room : (7 : UInt64).toNat + code.length < UInt64.size := by decide
  have proper : ∀ e ∈ es, e.Proper := by decide
  have hcode : code = encodeStream es := by decide
  obtain ⟨accepted, complete⟩ := decodeStream_grammar room
  obtain ⟨elements, hdecode, hes⟩ := complete es proper hcode
  exact ⟨room, proper, hcode, elements, hdecode, hes, (accepted elements).mp hdecode⟩

end LocatedElement

namespace DecodedProgram

open LocatedElement

/-- Images of any number of elements. -/
theorem decode_encodeStream {h : Header} (current : h.version = Header.currentVersion)
    {es : List Element} (proper : ∀ e ∈ es, e.Proper) :
    decode (h.encode ++ encodeStream es) = .ok ⟨h, locate (UInt64.ofNat Header.size) es⟩ := by
  have hdrop : (h.encode ++ encodeStream es).drop Header.size = encodeStream es := by
    rw [← Header.length_encode h, List.drop_left]
  have hstream : decodeStream (UInt64.ofNat Header.size) (encodeStream es) =
      .ok (locate (UInt64.ofNat Header.size) es) :=
    decodeStream_eq_ok.mpr ⟨es, proper, rfl, rfl⟩
  rw [decode, Header.decode_encode_append current, hdrop, hstream]

theorem proper_of_decode {image : List UInt8} {program : DecodedProgram}
    (decoded : decode image = .ok program) : ∀ e ∈ program.elements, e.Proper := by
  unfold decode at decoded
  split at decoded
  · cases decoded
  · split at decoded
    · cases decoded
    · next hstream =>
      cases decoded
      obtain ⟨es, proper, _, rfl⟩ := decodeStream_eq_ok.mp hstream
      intro e he
      have member := List.mem_map_of_mem (f := toElement) he
      rw [map_locate] at member
      exact proper e.toElement member

end DecodedProgram

end PortWire
