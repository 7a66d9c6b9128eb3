import PortWire.Proofs.Reader.Meaning
import PortWire.Proofs.Reader.Rest

/-!
# Running compiled elements

Running the program of a data element is the meaning of the element, in either direction and from
any position. The types are compared first, then the three shapes that an element can have, and the
header last. Nothing is assumed of the frames that a reader has open.
-/

namespace PortWire

/-! ## Types -/

theorem LittleEndian.signed_eq_toInt (w n : Nat) :
    signed w n = (BitVec.ofNat (8 * w) n).toInt := by
  rw [signed, BitVec.toInt_ofNat', Nat.pow_mul]
  rfl

namespace BaseType

variable {t : BaseType} {v : Variant}

theorem primitive_agrees {p : Primitive} (hv : t.variant? = some v)
    (hp : v.fieldType? = some (.primitive p)) :
    v.elementSize? = some t.width ∧ p.size = t.width ∧ t.itemwise ∧
      ∀ field, p.ofWord (LittleEndian.read field) = t.scalar field := by
  cases t <;> cases hv <;> cases hp <;>
    exact ⟨rfl, rfl, rfl, fun _ => by simp only [Primitive.ofWord, Primitive.size, scalar, width,
      LittleEndian.signed_eq_toInt]⟩

theorem fieldType_cases (hv : t.variant? = some v) :
    (∃ p, v.fieldType? = some (.primitive p)) ∨
      (v.fieldType? = some .str ∧ t = .str) ∨ (v.fieldType? = some .bytes ∧ t = .bytes) := by
  cases t <;> cases hv <;> simp [Variant.fieldType?]

theorem fieldType_agrees {type : FieldType} (hv : t.variant? = some v)
    (htype : v.fieldType? = some type) :
    v.elementSize? = some t.width ∧ type.itemSize = t.width ∧ type.itemwise = t.itemwise ∧
      ∀ n field, type.gather n field = t.gathered n field := by
  rcases fieldType_cases hv with ⟨p, hp⟩ | ⟨hstr, rfl⟩ | ⟨hbytes, rfl⟩
  · obtain rfl : FieldType.primitive p = type := Option.some.inj (hp.symm.trans htype)
    obtain ⟨helement, hsize, hitems, hscalar⟩ := primitive_agrees hv hp
    refine ⟨helement, hsize, hitems.symm, ?_⟩
    intro n field
    simp only [FieldType.gather, Primitive.ofWords_eq, gathered, hitems, hsize, hscalar, if_true,
      List.reverse_nil, List.nil_append]
  · obtain rfl : FieldType.str = type := Option.some.inj (hstr.symm.trans htype)
    cases hv
    exact ⟨rfl, rfl, rfl, fun _ _ => rfl⟩
  · obtain rfl : FieldType.bytes = type := Option.some.inj (hbytes.symm.trans htype)
    cases hv
    exact ⟨rfl, rfl, rfl, fun _ _ => rfl⟩

theorem exists_fieldType (hv : t.variant? = some v) : ∃ type, v.fieldType? = some type := by
  rcases fieldType_cases hv with ⟨p, hp⟩ | ⟨hstr, _⟩ | ⟨hbytes, _⟩
  · exact ⟨_, hp⟩
  · exact ⟨_, hstr⟩
  · exact ⟨_, hbytes⟩

end BaseType

theorem LengthWidth.bytes_of_ofLen? {n : UInt32} {w : LengthWidth} (h : ofLen? n = some w) :
    w.bytes = DataElement.prefixSize n := by
  obtain ⟨roomy, least⟩ := ofLen?_eq_some_iff.mp h
  unfold DataElement.prefixSize
  -- a narrower width with room would have been chosen
  cases w with
  | u8 => exact (if_pos roomy).symm
  | u16 =>
    have large : ¬ n < u8.maxLen := fun small => absurd (least u8 small) (by decide)
    exact ((if_neg large).trans (if_pos roomy)).symm
  | u32 =>
    have large : ¬ n < u8.maxLen := fun small => absurd (least u8 small) (by decide)
    have larger : ¬ n < u16.maxLen := fun middle => absurd (least u16 middle) (by decide)
    exact ((if_neg large).trans (if_neg larger)).symm

/-! ## Reading each shape -/

namespace FieldType

variable {t : BaseType} {v : Variant} {type : FieldType}

theorem read_scalar_agrees (hv : t.variant? = some v) (htype : v.fieldType? = some type)
    (limits : Limits) (data : List UInt8) (pos : Nat) :
    type.read limits (Reader.executedCount 0 type) none ⟨some data, pos⟩ =
      if t.width ≤ (data.drop pos).length then
        .ok (.scalar (t.scalar ((data.drop pos).take t.width)), ⟨some data, pos + t.width⟩)
      else
        .error (.pastEnd t.width (data.drop pos).length) := by
  rcases BaseType.fieldType_cases hv with ⟨p, hp⟩ | ⟨hstr, rfl⟩ | ⟨hbytes, rfl⟩
  · obtain rfl : FieldType.primitive p = type := Option.some.inj (hp.symm.trans htype)
    obtain ⟨_, hsize, _, hscalar⟩ := BaseType.primitive_agrees hv hp
    rw [Reader.executedCount, read_scalar, hsize, hscalar]
  · obtain rfl : FieldType.str = type := Option.some.inj (hstr.symm.trans htype)
    exact read_fixed limits (n := 1) (by decide) data pos
  · obtain rfl : FieldType.bytes = type := Option.some.inj (hbytes.symm.trans htype)
    exact read_fixed limits (n := 1) (by decide) data pos

theorem executedCount_of_ne_zero {n : UInt32} (h : n ≠ 0) (type : FieldType) :
    Reader.executedCount n type = n := by
  have hmax : max n 1 = n := by
    change (if n ≤ 1 then 1 else n) = n
    split
    · rename_i hle
      have hne : n.toNat ≠ 0 := fun hz => h (UInt32.toNat_inj.mp hz)
      have := UInt32.le_iff_toNat_le.mp hle
      apply UInt32.toNat_inj.mp
      change 1 = n.toNat
      have : (1 : UInt32).toNat = 1 := rfl
      omega
    · rfl
  cases type with
  | primitive p => rfl
  | str => exact hmax
  | bytes => exact hmax

end FieldType

namespace DataElement

/-- The meaning in the bytes from a position on, and where reading goes on behind it. -/
def meaningAt (e : DataElement) (limits : Limits) (data : List UInt8) (pos : Nat) :
    Except ReadError (Value × Source) :=
  match e.meaning limits.maxArrayLen (data.drop pos) with
  | .error err => .error err
  | .ok (value, used) => .ok (value, ⟨some data, pos + used⟩)

/-- Reads the field that an element is compiled to. -/
def readCompiled (e : DataElement) (opcode : Opcode) (v : Variant) (limits : Limits)
    (type : FieldType) : Take Value :=
  let (count, carried) := Reader.extent ⟨opcode, v, e.arrayPart?⟩
  type.read limits (Reader.executedCount count type) carried

variable {e : DataElement} {v : Variant} {type : FieldType} {data : List UInt8} {pos : Nat}

theorem readCompiled_scalar (hv : e.baseType.variant? = some v)
    (htype : v.fieldType? = some type) (scalar : e.arrayLen = 0) (opcode : Opcode)
    (limits : Limits) :
    e.readCompiled opcode v limits type ⟨some data, pos⟩ = e.meaningAt limits data pos := by
  have hpart : e.arrayPart? = none := by
    simp [arrayPart?, isArray, scalar]
  simp only [readCompiled, Reader.extent, hpart, meaningAt, meaning_scalar scalar]
  rw [FieldType.read_scalar_agrees hv htype]
  by_cases enough : e.baseType.width ≤ (data.drop pos).length
  · rw [if_pos enough, if_neg (Nat.not_lt.mpr enough)]
  · rw [if_neg enough, if_pos (Nat.not_le.mp enough)]

/-- The limit is checked before the bytes are, which does not show once the bytes are there. -/
theorem readCompiled_fixed (hv : e.baseType.variant? = some v)
    (htype : v.fieldType? = some type) (arrayed : e.arrayLen ≠ 0) (fixed : e.dynamic = false)
    {width : LengthWidth} (hwidth : LengthWidth.ofLen? e.arrayLen = some width)
    (enough : e.leastSize e.baseType.width ≤ (data.drop pos).length) (opcode : Opcode)
    (limits : Limits) :
    e.readCompiled opcode v limits type ⟨some data, pos⟩ = e.meaningAt limits data pos := by
  have hpart : e.arrayPart? = some ⟨width, false, some e.arrayLen⟩ := by
    simp [arrayPart?, isArray, arrayed, hwidth, fixed]
  obtain ⟨_, hsize, hitems, hgather⟩ := BaseType.fieldType_agrees hv htype
  rw [leastSize_fixed arrayed fixed] at enough
  simp only [readCompiled, Reader.extent, hpart, meaningAt, meaning_fixed arrayed fixed]
  rw [FieldType.executedCount_of_ne_zero arrayed, FieldType.read_fixed limits (fun _ => arrayed)]
  simp only [hsize, hitems, hgather, if_pos enough, if_neg (Nat.not_lt.mpr enough)]
  by_cases beyond : e.baseType.itemwise ∧ limits.maxArrayLen < e.arrayLen
  · simp only [if_pos beyond]
  · simp only [if_neg beyond]

/-- The count of a dynamic array is what its width can hold, which no length exceeds. -/
theorem readCompiled_dynamic (hv : e.baseType.variant? = some v)
    (htype : v.fieldType? = some type) (arrayed : e.arrayLen ≠ 0) (dynamic : e.dynamic = true)
    {width : LengthWidth} (hwidth : LengthWidth.ofLen? e.arrayLen = some width) (opcode : Opcode)
    (limits : Limits) :
    e.readCompiled opcode v limits type ⟨some data, pos⟩ = e.meaningAt limits data pos := by
  have hpart : e.arrayPart? = some ⟨width, true, none⟩ := by
    simp [arrayPart?, isArray, arrayed, hwidth, dynamic]
  obtain ⟨_, hsize, _, hgather⟩ := BaseType.fieldType_agrees hv htype
  have hmax : width.maxLen ≠ 0 := by cases width <;> decide
  have hbytes := LengthWidth.bytes_of_ofLen? hwidth
  have hcarried : ¬ width.maxLen < e.carriedLength (data.drop pos) := by
    rw [carriedLength, ← hbytes]
    exact UInt32.not_lt.mpr (width.read_le_maxLen (data.drop pos))
  simp only [readCompiled, Reader.extent, hpart, meaningAt, meaning_dynamic arrayed dynamic]
  rw [FieldType.executedCount_of_ne_zero hmax, FieldType.read_carried, hbytes,
    show UInt32.ofNat (LittleEndian.read ((data.drop pos).take (prefixSize e.arrayLen))) =
      e.carriedLength (data.drop pos) from rfl]
  simp only [hsize, hgather, if_neg hcarried]
  by_cases short : (data.drop pos).length < prefixSize e.arrayLen
  · simp only [if_neg (Nat.not_le.mpr short), if_pos short]
  by_cases beyond : limits.maxArrayLen < e.carriedLength (data.drop pos)
  · simp only [if_pos (Nat.not_lt.mp short), if_neg short, if_pos beyond]
  · simp only [if_pos (Nat.not_lt.mp short), if_neg short, if_neg beyond]
    generalize (data.drop pos).drop (prefixSize e.arrayLen) = field
    generalize (e.carriedLength (data.drop pos)).toNat = n
    by_cases missing : field.length < n * e.baseType.width
    · simp only [if_neg (Nat.not_le.mpr missing), if_pos missing]
    · simp only [if_pos (Nat.not_lt.mp missing), if_neg missing, Nat.add_assoc]

end DataElement

namespace Reader

variable {e : DataElement} {v : Variant}

/-- Once the least size is there, reading a compiled element follows its meaning. -/
theorem readElement_compiled (opcode : Opcode) (hv : e.baseType.variant? = some v)
    (hwidth : e.isArray → ∃ width, LengthWidth.ofLen? e.arrayLen = some width)
    (r : Reader) {data : List UInt8} (begun : r.source.buffer = some data)
    (enough : e.leastSize e.baseType.width ≤ (data.drop r.source.pos).length) :
    r.readElement ⟨opcode, v, e.arrayPart?⟩ =
      match e.meaning r.limits.maxArrayLen (data.drop r.source.pos) with
      | .error err => (.error err, { r with frames := [{}] })
      | .ok (value, used) =>
        (.ok value,
          { r with source := { r.source with pos := r.source.pos + used }, frames := [{}] }) := by
  obtain ⟨limits, ⟨buffer, pos⟩, frames⟩ := r
  obtain rfl : buffer = some data := begun
  obtain ⟨type, htype⟩ := BaseType.exists_fieldType hv
  have hread : e.readCompiled opcode v limits type ⟨some data, pos⟩ =
      e.meaningAt limits data pos := by
    by_cases scalar : e.arrayLen = 0
    · exact DataElement.readCompiled_scalar hv htype scalar opcode limits
    · obtain ⟨width, hwidth⟩ := hwidth (by simp [DataElement.isArray, scalar])
      cases hdynamic : e.dynamic with
      | false =>
        exact DataElement.readCompiled_fixed hv htype scalar hdynamic hwidth enough opcode limits
      | true => exact DataElement.readCompiled_dynamic hv htype scalar hdynamic hwidth opcode limits
  unfold DataElement.readCompiled at hread
  simp only at hread
  rw [readElement_eq]
  simp only [htype, hread, DataElement.meaningAt]
  cases e.meaning limits.maxArrayLen (data.drop pos) with
  | error err => rfl
  | ok result => rfl

end Reader

namespace DataElement

variable {e : DataElement} {p : Program}

/-- The effect of the image does not depend on its direction. -/
theorem run_image (type : ProgramType) {variant : Variant}
    (hv : e.baseType.variant? = some variant)
    (hwidth : e.isArray → ∃ width, LengthWidth.ofLen? e.arrayLen = some width)
    (fits : e.leastSize e.baseType.width < UInt32.size)
    {r : Reader} {data : List UInt8} (begun : r.source.buffer = some data) :
    r.run (image type ⟨type.elementOpcode, variant, e.arrayPart?⟩
        (e.leastSize e.baseType.width)) =
      if (data.drop r.source.pos).length < e.leastSize e.baseType.width then
        (.error (.pastEnd (e.leastSize e.baseType.width) (data.drop r.source.pos).length), r)
      else
        match e.meaning r.limits.maxArrayLen (data.drop r.source.pos) with
        | .error err => (.error err, { r with frames := [{}] })
        | .ok (value, used) =>
          (.ok value,
            { r with source := { r.source with pos := r.source.pos + used }, frames := [{}] }) := by
  have hremaining : r.source.remaining = (data.drop r.source.pos).length := by
    simp [Source.remaining, begun]
  rw [Reader.run_single begun (decode_image type e variant _), hremaining,
    UInt32.toNat_ofNat', Nat.mod_eq_of_lt fits]
  by_cases short : (data.drop r.source.pos).length < e.leastSize e.baseType.width
  · simp only [if_pos short]
  · simp only [if_neg short, Reader.readElement_compiled type.elementOpcode hv hwidth r begun
      (Nat.not_lt.mp short)]
    cases e.meaning r.limits.maxArrayLen (data.drop r.source.pos) with
    | error err => rfl
    | ok result => rfl

theorem exists_program {type : ProgramType} (compiled : e.program type = .ok p)
    (other : ProgramType) : ∃ q, e.program other = .ok q := by
  rw [program_eq] at compiled
  rw [program_eq, compile_opcode type.elementOpcode other.elementOpcode]
  cases hcompile : e.compile type.elementOpcode with
  | error err =>
    rw [hcompile] at compiled
    cases compiled
  | ok result =>
    rw [hcompile] at compiled
    by_cases fits : result.2 < UInt32.size
    · simp only [Except.map, if_pos fits]
      exact ⟨_, rfl⟩
    · simp only [if_neg fits] at compiled
      cases compiled

theorem header_image (type : ProgramType) (element : Element) {size : Nat}
    (fits : size < UInt32.size) :
    ∃ h, Program.header ⟨image type element size⟩ = .ok h ∧ h.type = type ∧
      h.dataSize.toNat = size := by
  refine ⟨_, Header.decode_encode_append rfl element.encode, rfl, ?_⟩
  change (UInt32.ofNat size).toNat = size
  rw [UInt32.toNat_ofNat', Nat.mod_eq_of_lt fits]

theorem exists_header {type : ProgramType} (compiled : e.program type = .ok p) :
    ∃ h, p.header = .ok h := by
  obtain ⟨variant, _, _, fits, code⟩ := program_eq_ok compiled
  obtain ⟨h, decoded, _⟩ := header_image type ⟨type.elementOpcode, variant, e.arrayPart?⟩ fits
  refine ⟨h, ?_⟩
  rw [Program.header, code]
  exact decoded

/-- The answer and the source that a compiled element leaves, whatever the frames are. -/
theorem run_compiled {type : ProgramType} (compiled : e.program type = .ok p)
    {r : Reader} {data : List UInt8} (begun : r.source.buffer = some data) :
    ((r.run p.code).1, (r.run p.code).2.source) =
      match e.meaning r.limits.maxArrayLen (data.drop r.source.pos) with
      | .error err => (.error err, r.source)
      | .ok (value, used) => (.ok value, { r.source with pos := r.source.pos + used }) := by
  obtain ⟨variant, hv, hwidth, fits, hcode⟩ := program_eq_ok compiled
  rw [hcode, run_image type hv hwidth fits begun]
  by_cases short : (data.drop r.source.pos).length < e.leastSize e.baseType.width
  · simp only [meaning, if_pos short]
  · simp only [if_neg short]
    cases e.meaning r.limits.maxArrayLen (data.drop r.source.pos) with
    | error err => rfl
    | ok result => rfl

/-- Compiling an element and running its program yields what the element means in the bytes that are
left, in either direction and from any position. The header holds the least size, which scalars and
fixed arrays take exactly. -/
theorem run_program_eq_meaning {type : ProgramType} (compiled : e.program type = .ok p)
    {r : Reader} {data : List UInt8} (begun : r.source.buffer = some data) :
    (∃ h, p.header = .ok h ∧ h.type = type ∧ h.dataSize.toNat = e.leastSize e.baseType.width) ∧
      (∀ other, ∃ q, e.program other = .ok q ∧ r.run q.code = r.run p.code) ∧
      ((r.run p.code).1, (r.run p.code).2.source) =
        match e.meaning r.limits.maxArrayLen (data.drop r.source.pos) with
        | .error err => (.error err, r.source)
        | .ok (value, used) => (.ok value, { r.source with pos := r.source.pos + used }) := by
  obtain ⟨variant, hv, hwidth, fits, hcode⟩ := program_eq_ok compiled
  refine ⟨?_, ?_, run_compiled compiled begun⟩
  · obtain ⟨h, hheader, htype, hsize⟩ :=
      header_image type ⟨type.elementOpcode, variant, e.arrayPart?⟩ fits
    exact ⟨h, by rw [Program.header, hcode]; exact hheader, htype, hsize⟩
  · intro other
    obtain ⟨q, hq⟩ := exists_program compiled other
    obtain ⟨variant', hv', _, _, hcode'⟩ := program_eq_ok hq
    obtain rfl : variant = variant' := Option.some.inj (hv.symm.trans hv')
    refine ⟨q, hq, ?_⟩
    rw [hcode, hcode', run_image type hv hwidth fits begun, run_image other hv hwidth fits begun]

/-- Two signed items behind a prefix, read from the middle of the data. -/
theorem run_program_eq_meaning_dynamic :
    (dynamicArray .s16 10).program .unpack = .ok ⟨[1, 0, 0, 0, 0, 0, 0, 0xA8, 0x82]⟩ ∧
      (Reader.run [1, 0, 0, 0, 0, 0, 0, 0xA8, 0x82]
        { source := ⟨some [7, 2, 0xFF, 0xFF, 0x34, 0x12, 9], 1⟩ }).1 =
        .ok (.array [.scalar (.i32 (-1)), .scalar (.i32 0x1234)]) := by
  have compiled : (dynamicArray .s16 10).program .unpack =
      .ok ⟨[1, 0, 0, 0, 0, 0, 0, 0xA8, 0x82]⟩ := rfl
  refine ⟨compiled, ?_⟩
  have hrun := (run_program_eq_meaning compiled
    (r := { source := ⟨some [7, 2, 0xFF, 0xFF, 0x34, 0x12, 9], 1⟩ }) rfl).2.2
  exact congrArg Prod.fst hrun

end DataElement

end PortWire
