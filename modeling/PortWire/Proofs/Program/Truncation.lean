import PortWire.Proofs.Program.Grammar

/-!
# Cut streams

A stream that was cut off is told from one that is wrong. Where the decoder misses bytes there are
bytes that complete what was begun; every other fault is found again at the same place, whatever
bytes are added. So a stream that was cut anywhere decodes to the elements in front of the cut, or
misses bytes. Where the first byte stands is added to all offsets and has no other part in this.
-/

namespace PortWire

namespace ProgramFault

/-- The bytes ended where more of them were due. -/
def IsEnd : ProgramFault → Prop
  | unexpectedEnd _ => True
  | _ => False

/-- The same fault, `d` bytes further on. -/
def shift (d : UInt64) : ProgramFault → ProgramFault
  | unexpectedEnd offset => unexpectedEnd (offset + d)
  | unexpectedInstruction offset found => unexpectedInstruction (offset + d) found
  | fault => fault

theorem offset_right_comm (offset a b : UInt64) : offset + a + b = offset + b + a := by
  rw [UInt64.add_assoc, UInt64.add_comm a, ← UInt64.add_assoc]

theorem isEnd_iff {fault : ProgramFault} :
    fault.IsEnd ↔ ∃ offset, fault = unexpectedEnd offset := by
  cases fault <;> simp [IsEnd]

end ProgramFault

theorem Instruction.decode_eq_error {b : UInt8} {fault : ProgramFault}
    (h : decode b = .error fault) :
    (∃ bits, fault = .unknownOpcode bits) ∨ ∃ bits, fault = .unknownVariant bits := by
  unfold decode ofFields at h
  split at h
  · cases h
    exact Or.inl ⟨_, rfl⟩
  · split at h
    · cases h
      exact Or.inr ⟨_, rfl⟩
    · cases h

/-- An instruction byte is a byte of its own, and no end is met in it. -/
theorem Instruction.not_isEnd_of_decode {b : UInt8} {fault : ProgramFault}
    (h : decode b = .error fault) : ¬ fault.IsEnd := by
  rcases decode_eq_error h with ⟨bits, rfl⟩ | ⟨bits, rfl⟩ <;> exact not_false

theorem Instruction.shift_of_decode {b : UInt8} {fault : ProgramFault}
    (h : decode b = .error fault) (d : UInt64) : fault.shift d = fault := by
  rcases decode_eq_error h with ⟨bits, rfl⟩ | ⟨bits, rfl⟩ <;> rfl

/-- Too few bytes for a length can be filled up. -/
theorem LengthWidth.exists_read?_append {w : LengthWidth} {bs : List UInt8}
    (missing : w.read? bs = none) :
    ∃ more n, w.read? (bs ++ more) = some n ∧ (bs ++ more).drop w.bytes = [] := by
  have short := read?_eq_none_iff.mp missing
  let more : List UInt8 := List.replicate (w.bytes - bs.length) 0
  have whole : (bs ++ more).length = w.bytes := by
    rw [List.length_append, List.length_replicate]
    omega
  have present : w.read? (bs ++ more) ≠ none := by
    intro absent
    have short := read?_eq_none_iff.mp absent
    omega
  obtain ⟨n, found⟩ := Option.ne_none_iff_exists'.mp present
  exact ⟨more, n, found, List.drop_of_length_le (Nat.le_of_eq whole)⟩

/-- What a fault in `bs` means, where `place` is that of the first byte and `read` takes one thing
off the front: bytes are missing, and some bytes make it whole, or no bytes do away with the fault.
-/
inductive Verdict {α : Type} (read : List UInt8 → Except ProgramFault (α × List UInt8))
    (place : UInt64) (bs : List UInt8) : ProgramFault → Prop
  | cut {k : Nat} {more : List UInt8} {a : α} : k ≤ bs.length → read (bs ++ more) = .ok (a, []) →
    Verdict read place bs (.unexpectedEnd (place + UInt64.ofNat k))
  | corrupt {fault : ProgramFault} : ¬ fault.IsEnd → (∀ more, read (bs ++ more) = .error fault) →
    Verdict read place bs fault

namespace ArrayPart

theorem verdict {place : UInt64} {bs : List UInt8} {fault : ProgramFault}
    (h : decode place bs = .error fault) : Verdict (decode place) place bs fault := by
  cases bs with
  | nil =>
    cases h
    have proper : Proper ⟨.u8, true, none⟩ := rfl
    have verdict : Verdict (decode place) place [] (.unexpectedEnd (place + UInt64.ofNat 0)) :=
      .cut (Nat.zero_le 0) (decode_encode_append proper place [])
    have nowhere : place + UInt64.ofNat 0 = place := UInt64.add_zero place
    rwa [nowhere] at verdict
  | cons b rest =>
    cases hb : Instruction.decode b with
    | error bad =>
      simp only [decode, hb] at h
      cases h
      refine .corrupt (Instruction.not_isEnd_of_decode hb) fun more => ?_
      simp only [List.cons_append, decode, hb]
    | ok i =>
      by_cases hopcode : i.opcode ≠ .array
      · simp only [decode, hb, if_pos hopcode] at h
        cases h
        refine .corrupt not_false fun more => ?_
        simp only [List.cons_append, decode, hb, if_pos hopcode]
      · cases hwidth : LengthWidth.ofVariant? i.variant with
        | none =>
          simp only [decode, hb, if_neg hopcode, hwidth] at h
          cases h
          refine .corrupt not_false fun more => ?_
          simp only [List.cons_append, decode, hb, if_neg hopcode, hwidth]
        | some width =>
          by_cases hflag : i.flag = true
          · simp only [decode, hb, if_neg hopcode, hwidth, if_pos hflag] at h
            cases h
          · cases hread : width.read? rest with
            | some n =>
              simp only [decode, hb, if_neg hopcode, hwidth, if_neg hflag, hread] at h
              cases h
            | none =>
              simp only [decode, hb, if_neg hopcode, hwidth, if_neg hflag, hread] at h
              cases h
              obtain ⟨more, n, found, nothing⟩ := LengthWidth.exists_read?_append hread
              have whole : decode place (b :: rest ++ more) =
                  .ok (⟨width, false, some n⟩, []) := by
                simp only [List.cons_append, decode, hb, if_neg hopcode, hwidth, if_neg hflag,
                  found, nothing]
              have behind : 1 ≤ (b :: rest).length := Nat.le_add_left 1 rest.length
              exact .cut behind whole

theorem decode_shift (place d : UInt64) (bs : List UInt8) :
    decode (place + d) bs = (decode place bs).mapError (ProgramFault.shift d) := by
  cases bs with
  | nil => rfl
  | cons b rest =>
    simp only [decode]
    split
    · next hb => exact congrArg Except.error (Instruction.shift_of_decode hb d).symm
    · split
      · rfl
      · split
        · rfl
        · split
          · rfl
          · split
            · have moved := ProgramFault.offset_right_comm place d 1
              exact congrArg (fun offset => Except.error (ProgramFault.unexpectedEnd offset)) moved
            · rfl

end ArrayPart

namespace Element

theorem verdict {place : UInt64} {b : UInt8} {rest : List UInt8} {fault : ProgramFault}
    (h : decode place b rest = .error fault) : Verdict (decode place b) (place + 1) rest fault := by
  cases hb : Instruction.decode b with
  | error bad =>
    simp only [decode, hb] at h
    cases h
    refine .corrupt (Instruction.not_isEnd_of_decode hb) fun more => ?_
    simp only [decode, hb]
  | ok i =>
    by_cases hopcode : i.opcode = .array
    · simp only [decode, hb, if_pos hopcode] at h
      cases h
      refine .corrupt not_false fun more => ?_
      simp only [decode, hb, if_pos hopcode]
    · by_cases hflag : i.flag = true
      · cases harray : ArrayPart.decode (place + 1) rest with
        | ok found =>
          simp only [decode, hb, if_neg hopcode, if_pos hflag, harray] at h
          cases h
        | error bad =>
          simp only [decode, hb, if_neg hopcode, if_pos hflag, harray] at h
          cases h
          cases ArrayPart.verdict harray with
          | @cut k more a within whole =>
            have entire : decode place b (rest ++ more) =
                .ok (⟨i.opcode, i.variant, some a⟩, []) := by
              simp only [decode, hb, if_neg hopcode, if_pos hflag, whole]
            exact .cut within entire
          | corrupt noEnd again =>
            refine .corrupt noEnd fun more => ?_
            simp only [decode, hb, if_neg hopcode, if_pos hflag, again more]
      · simp only [decode, hb, if_neg hopcode, if_neg hflag] at h
        cases h

theorem decode_shift (place d : UInt64) (b : UInt8) (rest : List UInt8) :
    decode (place + d) b rest = (decode place b rest).mapError (ProgramFault.shift d) := by
  simp only [decode]
  split
  · next hb => exact congrArg Except.error (Instruction.shift_of_decode hb d).symm
  · split
    · rfl
    · split
      · rw [ProgramFault.offset_right_comm, ArrayPart.decode_shift]
        cases ArrayPart.decode (place + 1) rest <;> rfl
      · rfl

end Element

namespace LocatedElement

/-- The same element, `d` bytes further on. -/
def shift (d : UInt64) (e : LocatedElement) : LocatedElement :=
  { e with offset := e.offset + d }

theorem locate_shift (offset d : UInt64) (es : List Element) :
    locate (offset + d) es = (locate offset es).map (shift d) := by
  induction es generalizing offset with
  | nil => rfl
  | cons e rest ih =>
    rw [locate, locate, List.map_cons, ← ih, ProgramFault.offset_right_comm]
    rfl

/-- The bytes decode, wherever the first of them stands. -/
def Decodes (base : UInt64) (code : List UInt8) : Prop :=
  ∃ elements, decodeStream base code = .ok elements

variable {base : UInt64} {code : List UInt8} {fault : ProgramFault}

theorem decodes_iff : Decodes base code ↔ ∃ es, (∀ e ∈ es, e.Proper) ∧ code = encodeStream es := by
  constructor
  · rintro ⟨elements, h⟩
    obtain ⟨es, proper, hcode, _⟩ := decodeStream_eq_ok.mp h
    exact ⟨es, proper, hcode⟩
  · rintro ⟨es, proper, hcode⟩
    exact ⟨_, decodeStream_eq_ok.mpr ⟨es, proper, hcode, rfl⟩⟩

theorem decodeFrom_cons_error {offset : UInt64} {b : UInt8} {rest : List UInt8}
    (h : Element.decode offset b rest = .error fault) (found : List LocatedElement) :
    decodeFrom offset found (b :: rest) = .error fault := by
  rw [decodeFrom]
  split
  · rename_i err herr
    rw [h] at herr
    cases herr
    rfl
  · rename_i e rest' hok
    rw [h] at hok
    cases hok

theorem decodeFrom_eq_error {offset : UInt64} {found : List LocatedElement}
    (h : decodeFrom offset found code = .error fault) :
    ∃ es b tail, (∀ e ∈ es, e.Proper) ∧ code = encodeStream es ++ b :: tail ∧
      Element.decode (offset + UInt64.ofNat (encodeStream es).length) b tail = .error fault := by
  fun_induction decodeFrom offset found code with
  | case1 offset found => cases h
  | case2 offset found b rest err herr =>
    cases h
    refine ⟨[], b, rest, List.forall_mem_nil _, rfl, ?_⟩
    simpa [encodeStream] using herr
  | case3 offset found b rest e rest' hdecode _ ih =>
    obtain ⟨es, b', tail, proper, hcode, hfault⟩ := ih h
    obtain ⟨first, hbytes⟩ := Element.encode_of_decode hdecode
    refine ⟨e :: es, b', tail, List.forall_mem_cons.mpr ⟨first, proper⟩, ?_, ?_⟩
    · rw [hbytes, hcode, ← List.append_assoc]
      rfl
    · simpa [encodeStream, Element.length_encode, UInt64.ofNat_add, UInt64.add_assoc] using hfault

/-- The decoder fails at the first bytes that begin no element, behind elements that are all
right. -/
theorem decodeStream_eq_error : decodeStream base code = .error fault ↔
    ∃ es b tail, (∀ e ∈ es, e.Proper) ∧ code = encodeStream es ++ b :: tail ∧
      Element.decode (base + UInt64.ofNat (encodeStream es).length) b tail = .error fault := by
  constructor
  · exact decodeFrom_eq_error
  · rintro ⟨es, b, tail, proper, rfl, hfault⟩
    rw [decodeStream, decodeFrom_encodeStream_append proper, decodeFrom_cons_error hfault]

/-- Missing bytes can be supplied. They were missed behind the first byte and not behind the end. -/
theorem decodes_append_of_end {offset : UInt64}
    (h : decodeStream base code = .error (.unexpectedEnd offset)) :
    (∃ more, Decodes base (code ++ more)) ∧
      ∃ k, 1 ≤ k ∧ k ≤ code.length ∧ offset = base + UInt64.ofNat k := by
  obtain ⟨es, b, tail, proper, rfl, hfault⟩ := decodeStream_eq_error.mp h
  have verdict := Element.verdict hfault
  generalize hend : ProgramFault.unexpectedEnd offset = fault at verdict
  cases verdict with
  | corrupt noEnd => exact absurd (hend ▸ trivial) noEnd
  | @cut k more e within whole =>
    cases hend
    constructor
    · obtain ⟨last, hbytes⟩ := Element.encode_of_decode whole
      refine ⟨more, decodes_iff.mpr ⟨es ++ [e], ?_, ?_⟩⟩
      · exact List.forall_mem_append.mpr ⟨proper, List.forall_mem_singleton.mpr last⟩
      · rw [List.append_assoc, List.cons_append, hbytes, List.append_nil]
        simp [encodeStream]
    · refine ⟨(encodeStream es).length + 1 + k, by omega, ?_, ?_⟩
      · rw [List.length_append, List.length_cons]
        omega
      · rw [UInt64.ofNat_add, UInt64.ofNat_add, ← UInt64.add_assoc, ← UInt64.add_assoc]
        rfl

/-- No bytes behind make good what is wrong. -/
theorem decodeStream_append_of_not_isEnd (h : decodeStream base code = .error fault)
    (noEnd : ¬ fault.IsEnd) (more : List UInt8) :
    decodeStream base (code ++ more) = .error fault := by
  obtain ⟨es, b, tail, proper, rfl, hfault⟩ := decodeStream_eq_error.mp h
  refine decodeStream_eq_error.mpr ⟨es, b, tail ++ more, proper, ?_, ?_⟩
  · rw [List.append_assoc, List.cons_append]
  · cases Element.verdict hfault with
    | cut => exact absurd trivial noEnd
    | corrupt _ again => exact again more

/-- The decoder misses bytes exactly where some are missing. -/
theorem end_iff_completable :
    (∃ offset, decodeStream base code = .error (.unexpectedEnd offset)) ↔
      ¬ Decodes base code ∧ ∃ more, Decodes base (code ++ more) := by
  constructor
  · rintro ⟨offset, h⟩
    refine ⟨?_, (decodes_append_of_end h).1⟩
    rintro ⟨elements, decoded⟩
    rw [h] at decoded
    cases decoded
  · rintro ⟨undecodable, more, elements, decoded⟩
    cases h : decodeStream base code with
    | ok found => exact absurd ⟨found, h⟩ undecodable
    | error fault =>
      by_cases isEnd : fault.IsEnd
      · obtain ⟨offset, rfl⟩ := ProgramFault.isEnd_iff.mp isEnd
        exact ⟨offset, rfl⟩
      · rw [decodeStream_append_of_not_isEnd h isEnd more] at decoded
        cases decoded

/-- What is in front of a cut is the elements there, or a stream that misses bytes. -/
theorem decodeStream_of_append {front back : List UInt8} {elements : List LocatedElement}
    (decoded : decodeStream base (front ++ back) = .ok elements) :
    (∃ first, decodeStream base front = .ok first ∧ first <+: elements) ∨
      ∃ offset, decodeStream base front = .error (.unexpectedEnd offset) := by
  cases h : decodeStream base front with
  | error fault =>
    refine Or.inr (h ▸ end_iff_completable.mpr ⟨?_, back, elements, decoded⟩)
    rintro ⟨first, found⟩
    rw [h] at found
    cases found
  | ok first =>
    obtain ⟨es, proper, rfl, rfl⟩ := decodeStream_eq_ok.mp h
    rw [decodeStream, decodeFrom_encodeStream_append proper] at decoded
    obtain ⟨others, _, _, rfl⟩ := decodeFrom_eq_ok decoded
    refine Or.inl ⟨_, rfl, ?_⟩
    rw [List.append_nil, List.reverse_reverse]
    exact List.prefix_append _ _

theorem decodeStream_shift (base d : UInt64) (code : List UInt8) :
    decodeStream (base + d) code =
      ((decodeStream base code).map (List.map (shift d))).mapError (ProgramFault.shift d) := by
  cases h : decodeStream base code with
  | ok elements =>
    obtain ⟨es, proper, rfl, rfl⟩ := decodeStream_eq_ok.mp h
    exact decodeStream_eq_ok.mpr ⟨es, proper, rfl, (locate_shift base d es).symm⟩
  | error fault =>
    obtain ⟨es, b, tail, proper, rfl, hfault⟩ := decodeStream_eq_error.mp h
    refine decodeStream_eq_error.mpr ⟨es, b, tail, proper, rfl, ?_⟩
    rw [ProgramFault.offset_right_comm, Element.decode_shift, hfault]
    rfl

/-- The decoder misses bytes exactly in a stream that does not decode and that some bytes complete;
it misses them behind the first byte and not behind the end. With any other fault it stops at the
same place whatever follows. A stream that decodes, cut anywhere, decodes to the elements in front
of the cut or misses bytes. Counting from elsewhere moves all offsets alike and changes nothing
else. -/
theorem truncation_told_from_corruption (room : base.toNat + code.length < UInt64.size) :
    ((∃ offset, decodeStream base code = .error (.unexpectedEnd offset)) ↔
        ¬ Decodes base code ∧ ∃ more, Decodes base (code ++ more)) ∧
      (∀ offset, decodeStream base code = .error (.unexpectedEnd offset) →
        base.toNat + 1 ≤ offset.toNat ∧ offset.toNat ≤ base.toNat + code.length) ∧
      (∀ fault, decodeStream base code = .error fault →
        (∀ offset, fault ≠ .unexpectedEnd offset) →
          ∀ more, decodeStream base (code ++ more) = .error fault) ∧
      (∀ elements, decodeStream base code = .ok elements → ∀ front back, code = front ++ back →
        (∃ first, decodeStream base front = .ok first ∧ first <+: elements) ∨
          ∃ offset, decodeStream base front = .error (.unexpectedEnd offset)) ∧
      ∀ d, decodeStream (base + d) code =
        ((decodeStream base code).map (List.map (shift d))).mapError (ProgramFault.shift d) := by
  refine ⟨end_iff_completable, ?_, ?_, ?_, fun d => decodeStream_shift base d code⟩
  · intro offset h
    obtain ⟨_, k, behind, within, rfl⟩ := decodes_append_of_end h
    have place : (base + UInt64.ofNat k).toNat = base.toNat + k := by
      rw [UInt64.toNat_add, UInt64.toNat_ofNat', Nat.add_mod_mod]
      exact Nat.mod_eq_of_lt (by simp only [UInt64.size] at room; omega)
    omega
  · intro fault h other
    refine decodeStream_append_of_not_isEnd h ?_
    intro isEnd
    obtain ⟨offset, same⟩ := ProgramFault.isEnd_iff.mp isEnd
    exact other offset same
  · rintro elements decoded front back rfl
    exact decodeStream_of_append decoded

/-- A stream that is cut inside a length, and one that goes on with the instruction of an array. -/
theorem cut_length_told_from_stray_array :
    let cut : List UInt8 := [0x10, 0x89, 0x0A, 0x03]
    let wrong : List UInt8 := [0x10, 0x02]
    decodeStream 7 cut = .error (.unexpectedEnd 10) ∧ (∃ more, Decodes 7 (cut ++ more)) ∧
      decodeStream 8 cut = .error (.unexpectedEnd 11) ∧
      ∀ more, decodeStream 7 (wrong ++ more) = .error (.unexpectedInstruction 8 .array) := by
  intro cut wrong
  have proper : ∀ e ∈ [(⟨.unpack, .u32, none⟩ : Element)], e.Proper := by decide
  have cutHere : decodeStream 7 cut = .error (.unexpectedEnd 10) :=
    decodeStream_eq_error.mpr ⟨_, 0x89, [0x0A, 0x03], proper, by decide, rfl⟩
  have wrongHere : decodeStream 7 wrong = .error (.unexpectedInstruction 8 .array) :=
    decodeStream_eq_error.mpr ⟨_, 0x02, [], proper, by decide, rfl⟩
  obtain ⟨missing, _, _, _, elsewhere⟩ :=
    @truncation_told_from_corruption 7 cut (by decide)
  obtain ⟨_, _, final, _⟩ :=
    @truncation_told_from_corruption 7 wrong (by decide)
  refine ⟨cutHere, (missing.mp ⟨10, cutHere⟩).2, ?_, ?_⟩
  · have moved := elsewhere 1
    rw [cutHere] at moved
    exact moved
  · refine final _ wrongHere ?_
    intro offset same
    cases same

end LocatedElement

end PortWire
