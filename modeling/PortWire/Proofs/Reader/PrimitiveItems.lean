import PortWire.Proofs.Reader.Steps

/-!
# Items of primitive fields

A sender writes the items of a primitive field as little-endian words, with their number in front if
it is not agreed on. Unpacking such a field gives the same items back, widened, and leaves what is
behind them. Where the field is short or too long, the checks are made in a fixed order, and the
first that fails is reported.
-/

namespace PortWire

namespace Primitive

/-- What a sender has for one item of the type. -/
def Item : Primitive → Type
  | .u8 => UInt8
  | .u16 => UInt16
  | .u32 => UInt32
  | .u64 => UInt64
  | .s8 => Int8
  | .s16 => Int16
  | .s32 => Int32
  | .s64 => Int64
  | .bool => Bool

/-- The bits of an item. A flag is a byte of zero or one. -/
def bits : (p : Primitive) → p.Item → Nat
  | .u8, x => UInt8.toNat x
  | .u16, x => UInt16.toNat x
  | .u32, x => UInt32.toNat x
  | .u64, x => UInt64.toNat x
  | .s8, x => (Int8.toUInt8 x).toNat
  | .s16, x => (Int16.toUInt16 x).toNat
  | .s32, x => (Int32.toUInt32 x).toNat
  | .s64, x => (Int64.toUInt64 x).toNat
  | .bool, x => Bool.toNat x

/-- The item with these bits. Any byte but zero is a flag that is set. -/
def ofBits : (p : Primitive) → Nat → p.Item
  | .u8, n => UInt8.ofNat n
  | .u16, n => UInt16.ofNat n
  | .u32, n => UInt32.ofNat n
  | .u64, n => UInt64.ofNat n
  | .s8, n => (UInt8.ofNat n).toInt8
  | .s16, n => (UInt16.ofNat n).toInt16
  | .s32, n => (UInt32.ofNat n).toInt32
  | .s64, n => (UInt64.ofNat n).toInt64
  | .bool, n => n != 0

def widen : (p : Primitive) → p.Item → Scalar
  | .u8, x => .u32 (UInt8.toUInt32 x)
  | .u16, x => .u32 (UInt16.toUInt32 x)
  | .u32, x => .u32 x
  | .u64, x => .u64 x
  | .s8, x => .i32 (Int8.toInt32 x)
  | .s16, x => .i32 (Int16.toInt32 x)
  | .s32, x => .i32 x
  | .s64, x => .i64 x
  | .bool, x => .bool x

variable {p : Primitive}

def encode (p : Primitive) (x : p.Item) : List UInt8 :=
  LittleEndian.write p.size (p.bits x)

def decode (p : Primitive) (piece : List UInt8) : p.Item :=
  p.ofBits (LittleEndian.read piece)

@[simp]
theorem length_encode (x : p.Item) : (p.encode x).length = p.size :=
  LittleEndian.length_write _ _

theorem bits_lt (x : p.Item) : p.bits x < LittleEndian.capacity p.size := by
  cases p with
  | u8 => exact UInt8.toNat_lt x
  | u16 => exact UInt16.toNat_lt x
  | u32 => exact UInt32.toNat_lt x
  | u64 => exact UInt64.toNat_lt x
  | s8 => exact UInt8.toNat_lt _
  | s16 => exact UInt16.toNat_lt _
  | s32 => exact UInt32.toNat_lt _
  | s64 => exact UInt64.toNat_lt _
  | bool => cases x <;> decide

theorem ofBits_bits (x : p.Item) : p.ofBits (p.bits x) = x := by
  cases p with
  | u8 => exact UInt8.ofNat_toNat
  | u16 => exact UInt16.ofNat_toNat
  | u32 => exact UInt32.ofNat_toNat
  | u64 => exact UInt64.ofNat_toNat
  | s8 => exact congrArg UInt8.toInt8 UInt8.ofNat_toNat
  | s16 => exact congrArg UInt16.toInt16 UInt16.ofNat_toNat
  | s32 => exact congrArg UInt32.toInt32 UInt32.ofNat_toNat
  | s64 => exact congrArg UInt64.toInt64 UInt64.ofNat_toNat
  | bool => cases x <;> rfl

theorem decode_encode (x : p.Item) : p.decode (p.encode x) = x := by
  rw [decode, encode, LittleEndian.read_write, Nat.mod_eq_of_lt (bits_lt x), ofBits_bits]

/-- Widening an item gives what its bits stand for in two's complement. -/
theorem widen_ofBits {n : Nat} (word : n < LittleEndian.capacity p.size) :
    p.widen (p.ofBits n) = p.ofWord n := by
  cases p with
  | u8 =>
    have small : n < 256 := word
    have same : (UInt8.ofNat n).toUInt32 = UInt32.ofNat n := by
      apply UInt32.toNat_inj.mp
      rw [UInt8.toNat_toUInt32, UInt8.toNat_ofNat', UInt32.toNat_ofNat']
      omega
    exact congrArg Scalar.u32 same
  | u16 =>
    have small : n < 65536 := word
    have same : (UInt16.ofNat n).toUInt32 = UInt32.ofNat n := by
      apply UInt32.toNat_inj.mp
      rw [UInt16.toNat_toUInt32, UInt16.toNat_ofNat', UInt32.toNat_ofNat']
      omega
    exact congrArg Scalar.u32 same
  | u32 | u64 | bool => rfl
  | s8 =>
    have number : (UInt8.ofNat n).toInt8.toInt32.toInt = LittleEndian.signed 1 n := by
      rw [Int8.toInt_toInt32, UInt8.toInt8_ofNat']
      exact Int8.toInt_ofNat'
    have same := Int32.ofInt_toInt (UInt8.ofNat n).toInt8.toInt32
    rw [number] at same
    exact congrArg Scalar.i32 same.symm
  | s16 =>
    have number : (UInt16.ofNat n).toInt16.toInt32.toInt = LittleEndian.signed 2 n := by
      rw [Int16.toInt_toInt32, UInt16.toInt16_ofNat']
      exact Int16.toInt_ofNat'
    have same := Int32.ofInt_toInt (UInt16.ofNat n).toInt16.toInt32
    rw [number] at same
    exact congrArg Scalar.i32 same.symm
  | s32 =>
    have number : (UInt32.ofNat n).toInt32.toInt = LittleEndian.signed 4 n := by
      rw [UInt32.toInt32_ofNat']
      exact Int32.toInt_ofNat'
    have same := Int32.ofInt_toInt (UInt32.ofNat n).toInt32
    rw [number] at same
    exact congrArg Scalar.i32 same.symm
  | s64 =>
    have number : (UInt64.ofNat n).toInt64.toInt = LittleEndian.signed 8 n := by
      rw [UInt64.toInt64_ofNat']
      exact Int64.toInt_ofNat'
    have same := Int64.ofInt_toInt (UInt64.ofNat n).toInt64
    rw [number] at same
    exact congrArg Scalar.i64 same.symm

theorem widen_decode {piece : List UInt8} (whole : piece.length = p.size) :
    p.widen (p.decode piece) = p.ofWord (LittleEndian.read piece) := by
  refine widen_ofBits ?_
  rw [← whole]
  exact LittleEndian.read_lt piece

/-- The items that a field spells, each in a piece of its own. -/
inductive Spells (p : Primitive) : List UInt8 → List p.Item → Prop
  | nil : Spells p [] []
  | cons {piece field : List UInt8} {xs : List p.Item} : piece.length = p.size →
    Spells p field xs → Spells p (piece ++ field) (p.decode piece :: xs)

theorem Spells.length_eq {field : List UInt8} {xs : List p.Item} (h : p.Spells field xs) :
    field.length = xs.length * p.size := by
  induction h with
  | nil => exact (Nat.zero_mul _).symm
  | cons whole _ ih =>
    rw [List.length_append, List.length_cons, Nat.succ_mul, whole, ih, Nat.add_comm]

/-- The values that are made of a field are those of the items that it spells. -/
theorem Spells.ofWords_eq {field : List UInt8} {xs : List p.Item} (h : p.Spells field xs)
    (found : List Value) :
    p.ofWords found xs.length field = found.reverse ++ xs.map fun x => .scalar (p.widen x) := by
  induction h generalizing found with
  | nil => rw [List.map_nil, List.append_nil, List.length_nil, ofWords]
  | @cons piece field xs whole _ ih =>
    rw [List.length_cons, ofWords, ← whole, List.take_left, List.drop_left, ih,
      ← widen_decode whole, List.reverse_cons, List.append_assoc, List.map_cons,
      List.singleton_append]

theorem spells_encode (xs : List p.Item) : p.Spells (xs.flatMap p.encode) xs := by
  induction xs with
  | nil => exact .nil
  | cons x xs ih =>
    have first := Spells.cons (length_encode x) ih
    rwa [decode_encode] at first

/-- Every field of the right size spells items. -/
theorem exists_spells {n : Nat} {field : List UInt8} (whole : field.length = n * p.size) :
    ∃ xs, p.Spells field xs ∧ xs.length = n := by
  induction n generalizing field with
  | zero =>
    rw [Nat.zero_mul] at whole
    obtain rfl := List.length_eq_zero_iff.mp whole
    exact ⟨[], .nil, rfl⟩
  | succ n ih =>
    rw [Nat.succ_mul] at whole
    have others : (field.drop p.size).length = n * p.size := by
      rw [List.length_drop, whole, Nat.add_sub_cancel]
    obtain ⟨xs, spelled, hlength⟩ := ih others
    have piece : (field.take p.size).length = p.size := List.length_take_of_le (by omega)
    have all := Spells.cons piece spelled
    rw [List.take_append_drop] at all
    exact ⟨_, all, congrArg Nat.succ hlength⟩

/-- How many items there are is given with the field, or it stands in front of them. A count of zero
gives no number: it asks for a single item. -/
inductive Announces (count : UInt32) : Option LengthWidth → UInt32 → List UInt8 → Prop
  | given : count ≠ 0 → Announces count none count []
  | carried {width : LengthWidth} {n : UInt32} : n ≤ width.maxLen →
    Announces count (some width) n (width.write n)

/-- What unpacking makes of the bytes that are left: a value and the number of bytes that it takes,
or the first error. -/
inductive Unpacks (p : Primitive) (limits : Limits) (count : UInt32)
    (carried : Option LengthWidth) : List UInt8 → Except ReadError (Value × Nat) → Prop
  | scalar {piece behind : List UInt8} : count = 0 → carried = none → piece.length = p.size →
    Unpacks p limits count carried (piece ++ behind)
      (.ok (.scalar (p.widen (p.decode piece)), p.size))
  | scalarMissing {rest : List UInt8} : count = 0 → carried = none → rest.length < p.size →
    Unpacks p limits count carried rest (.error (.pastEnd p.size rest.length))
  | lengthMissing {width : LengthWidth} {rest : List UInt8} : carried = some width →
    rest.length < width.bytes →
      Unpacks p limits count carried rest (.error (.pastEnd width.bytes rest.length))
  | tooLong {n : UInt32} {front behind : List UInt8} : Announces count carried n front →
    count < n → Unpacks p limits count carried (front ++ behind) (.error (.tooLong n count))
  | beyondLimit {n : UInt32} {front behind : List UInt8} : Announces count carried n front →
    n ≤ count → limits.maxArrayLen < n →
      Unpacks p limits count carried (front ++ behind)
        (.error (.limit (.arrayLen n limits.maxArrayLen)))
  | itemsMissing {n : UInt32} {front behind : List UInt8} : Announces count carried n front →
    n ≤ count → n ≤ limits.maxArrayLen → behind.length < n.toNat * p.size →
      Unpacks p limits count carried (front ++ behind)
        (.error (.pastEnd (n.toNat * p.size) behind.length))
  | items {n : UInt32} {xs : List p.Item} {front field behind : List UInt8} :
    Announces count carried n front → n ≤ count → n ≤ limits.maxArrayLen → n.toNat = xs.length →
      p.Spells field xs →
        Unpacks p limits count carried (front ++ field ++ behind)
          (.ok (.array (xs.map fun x => .scalar (p.widen x)), front.length + n.toNat * p.size))

variable {limits : Limits} {count : UInt32} {carried : Option LengthWidth}

/-- The number of items is known, or too few bytes are left to hold it. -/
theorem announces_or_missing (rest : List UInt8) (several : ¬ (count = 0 ∧ carried = none)) :
    (∃ n front behind, Announces count carried n front ∧ rest = front ++ behind) ∨
      ∃ width, carried = some width ∧ rest.length < width.bytes := by
  cases carried with
  | none => exact Or.inl ⟨count, [], rest, .given fun zero => several ⟨zero, rfl⟩, rfl⟩
  | some width =>
    cases hread : width.read? rest with
    | none => exact Or.inr ⟨width, rfl, LengthWidth.read?_eq_none_iff.mp hread⟩
    | some n =>
      refine Or.inl ⟨n, width.write n, rest.drop width.bytes,
        .carried (LengthWidth.le_maxLen_of_read? hread), ?_⟩
      rw [LengthWidth.write_of_read? hread, List.take_append_drop]

/-- Whatever is left, something comes of it. -/
theorem exists_unpacks (p : Primitive) (limits : Limits) (count : UInt32)
    (carried : Option LengthWidth) (rest : List UInt8) :
    ∃ outcome, p.Unpacks limits count carried rest outcome := by
  by_cases single : count = 0 ∧ carried = none
  · obtain ⟨zero, absent⟩ := single
    by_cases missing : rest.length < p.size
    · exact ⟨_, .scalarMissing zero absent missing⟩
    · have piece : (rest.take p.size).length = p.size := List.length_take_of_le (by omega)
      rw [← List.take_append_drop p.size rest]
      exact ⟨_, .scalar zero absent piece⟩
  · rcases announces_or_missing rest single with ⟨n, front, behind, known, rfl⟩ | missing
    · by_cases long : count < n
      · exact ⟨_, .tooLong known long⟩
      · have short : n ≤ count := UInt32.not_lt.mp long
        by_cases beyond : limits.maxArrayLen < n
        · exact ⟨_, .beyondLimit known short beyond⟩
        · have within : n ≤ limits.maxArrayLen := UInt32.not_lt.mp beyond
          by_cases cut : behind.length < n.toNat * p.size
          · exact ⟨_, .itemsMissing known short within cut⟩
          · obtain ⟨xs, spelled, hlength⟩ := exists_spells
              (List.length_take_of_le (Nat.le_of_not_lt cut))
            rw [← List.take_append_drop (n.toNat * p.size) behind, ← List.append_assoc]
            exact ⟨_, .items known short within hlength.symm spelled⟩
    · obtain ⟨width, present, missing⟩ := missing
      exact ⟨_, .lengthMissing present missing⟩

theorem Announces.several {n : UInt32} {front : List UInt8}
    (known : Announces count carried n front) : ¬ (count = 0 ∧ carried = none) := by
  rintro ⟨zero, absent⟩
  cases known with
  | given nonzero => exact nonzero zero
  | carried => cases absent

/-- The number of items is checked against the count first and then against the limit. -/
theorem Announces.arrayLength_eq {n : UInt32} {front behind data : List UInt8} {pos : Nat}
    (known : Announces count carried n front) (left : data.drop pos = front ++ behind) :
    Take.arrayLength limits count carried ⟨some data, pos⟩ =
      if count < n then .error (.tooLong n count)
      else if n ≤ limits.maxArrayLen then .ok (n, ⟨some data, pos + front.length⟩)
      else .error (.limit (.arrayLen n limits.maxArrayLen)) := by
  cases known with
  | given =>
    rw [Take.arrayLength_fixed, if_neg (UInt32.lt_irrefl count)]
    rfl
  | @carried width n fits =>
    have enough : width.bytes ≤ (width.write n ++ behind).length := by
      rw [List.length_append, LengthWidth.length_write]
      exact Nat.le_add_right _ _
    have found := width.read?_write_of_le fits behind
    rw [LengthWidth.read?, if_pos enough] at found
    rw [Take.arrayLength_carried, left, if_pos enough, Option.some.inj found,
      LengthWidth.length_write]

theorem Announces.read_eq {n : UInt32} {front behind data : List UInt8} {pos : Nat}
    (known : Announces count carried n front) (left : data.drop pos = front ++ behind) :
    (FieldType.primitive p).read limits count carried ⟨some data, pos⟩ =
      if count < n then .error (.tooLong n count)
      else if n ≤ limits.maxArrayLen then
        if n.toNat * p.size ≤ behind.length then
          .ok (.array (p.ofWords [] n.toNat (behind.take (n.toNat * p.size))),
            ⟨some data, pos + front.length + n.toNat * p.size⟩)
        else
          .error (.pastEnd (n.toNat * p.size) behind.length)
      else .error (.limit (.arrayLen n limits.maxArrayLen)) := by
  have items : ∀ q, FieldType.primitive p = .primitive q → ¬ (count = 0 ∧ carried = none) :=
    fun _ _ => known.several
  have further : data.drop (pos + front.length) = behind := by
    rw [← List.drop_drop, left, List.drop_left]
  rw [FieldType.read_items limits items, Take.bind_apply, FieldType.itemCount,
    known.arrayLength_eq left]
  by_cases long : count < n
  · simp only [if_pos long]
  · simp only [if_neg long]
    by_cases within : n ≤ limits.maxArrayLen
    · simp only [if_pos within]
      rw [Take.bind_apply, Take.bytes_begun, further]
      by_cases full : n.toNat * (FieldType.primitive p).itemSize ≤ behind.length
      · simp only [if_pos full]
        exact (if_pos full).symm
      · simp only [if_neg full]
        exact (if_neg full).symm
    · simp only [if_neg within]

/-- What the rules say is what reading a field yields. -/
theorem Unpacks.read_eq {data : List UInt8} {pos : Nat}
    {outcome : Except ReadError (Value × Nat)}
    (h : p.Unpacks limits count carried (data.drop pos) outcome) :
    (FieldType.primitive p).read limits count carried ⟨some data, pos⟩ =
      outcome.map fun found => (found.1, ⟨some data, pos + found.2⟩) := by
  generalize left : data.drop pos = rest at h
  cases h with
  | @scalar piece behind zero absent whole =>
    subst zero absent
    have enough : p.size ≤ (piece ++ behind).length := by
      rw [List.length_append, whole]
      exact Nat.le_add_right _ _
    rw [FieldType.read_scalar, left, if_pos enough, widen_decode whole, ← whole, List.take_left]
    rfl
  | scalarMissing zero absent missing =>
    subst zero absent
    rw [FieldType.read_scalar, left, if_neg (Nat.not_le.mpr missing)]
    rfl
  | lengthMissing present missing =>
    subst present
    rw [FieldType.read_carried, left, if_neg (Nat.not_le.mpr missing)]
    rfl
  | tooLong known long =>
    rw [known.read_eq left, if_pos long]
    rfl
  | beyondLimit known short beyond =>
    rw [known.read_eq left, if_neg (UInt32.not_lt.mpr short), if_neg (UInt32.not_le.mpr beyond)]
    rfl
  | itemsMissing known short within missing =>
    rw [known.read_eq left, if_neg (UInt32.not_lt.mpr short), if_pos within,
      if_neg (Nat.not_le.mpr missing)]
    rfl
  | @items n xs front field behind known short within number spelled =>
    have whole : field.length = n.toNat * p.size := by
      rw [spelled.length_eq, number]
    have enough : n.toNat * p.size ≤ (field ++ behind).length := by
      rw [List.length_append, whole]
      exact Nat.le_add_right _ _
    have values := spelled.ofWords_eq []
    rw [List.append_assoc] at left
    rw [known.read_eq left, if_neg (UInt32.not_lt.mpr short), if_pos within, if_pos enough,
      ← whole, List.take_left, number, values, Nat.add_assoc]
    rfl

end Primitive

namespace Reader

open Primitive

variable {r : Reader} {data : List UInt8} {inner : Frame} {below : List Frame}

/-- What comes of a primitive field is what the rules say, and something always comes of it. An
error leaves the reader as it is. A value goes into the innermost frame, and the bytes that it took
are behind the reader. So one item, or any list of items with its number in front that the count,
the width of the number and the limit admit, is unpacked from where a sender has written it, and
what is written behind it is left for the next. -/
theorem readField_primitive (begun : r.source.buffer = some data)
    (opened : r.frames = inner :: below) (p : Primitive) (count : UInt32)
    (carried : Option LengthWidth) :
    let rest := data.drop r.source.pos
    let unpacked := r.readField (.primitive p) count carried
    let stored (v : Value) (used : Nat) : Reader :=
      ⟨r.limits, ⟨some data, r.source.pos + used⟩,
        Frame.settle { inner with value := some v } below⟩
    (∃ outcome, p.Unpacks r.limits count carried rest outcome) ∧
      (∀ e, p.Unpacks r.limits count carried rest (.error e) → unpacked = (.error e, r)) ∧
      (∀ v used, p.Unpacks r.limits count carried rest (.ok (v, used)) →
        unpacked = (.ok (), stored v used)) ∧
      (∀ (x : p.Item) (trailing : List UInt8), count = 0 → carried = none →
        rest = p.encode x ++ trailing →
          unpacked = (.ok (), stored (.scalar (p.widen x)) p.size) ∧
            rest.drop p.size = trailing) ∧
      ∀ (xs : List p.Item) (n : UInt32) (front trailing : List UInt8),
        Announces count carried n front → n.toNat = xs.length → n ≤ count →
          n ≤ r.limits.maxArrayLen → rest = front ++ xs.flatMap p.encode ++ trailing →
            let used := front.length + xs.length * p.size
            unpacked = (.ok (), stored (.array (xs.map fun x => .scalar (p.widen x))) used) ∧
              rest.drop used = trailing := by
  obtain ⟨limits, ⟨_, pos⟩, _⟩ := r
  obtain rfl := begun
  obtain rfl := opened
  intro rest unpacked stored
  have refused : ∀ e, p.Unpacks limits count carried rest (.error e) →
      unpacked = (.error e, ⟨limits, ⟨some data, pos⟩, inner :: below⟩) := by
    intro e h
    simp only [unpacked, readField, take, h.read_eq, Except.map]
  have done : ∀ v used, p.Unpacks limits count carried rest (.ok (v, used)) →
      unpacked = (.ok (), stored v used) := by
    intro v used h
    simp only [unpacked, stored, readField, take, h.read_eq, Except.map, store, onFrames,
      Frame.store]
  refine ⟨exists_unpacks p limits count carried rest, refused, done, ?_, ?_⟩
  · intro x trailing zero absent left
    have single : p.Unpacks limits count carried (p.encode x ++ trailing)
        (.ok (.scalar (p.widen (p.decode (p.encode x))), p.size)) :=
      .scalar zero absent (length_encode x)
    rw [← left, decode_encode] at single
    refine ⟨done _ _ single, ?_⟩
    rw [left, ← length_encode x, List.drop_left]
  · intro xs n front trailing known number short within left used
    have spelled := spells_encode xs
    have several : p.Unpacks limits count carried (front ++ xs.flatMap p.encode ++ trailing)
        (.ok (.array (xs.map fun x => .scalar (p.widen x)), front.length + n.toNat * p.size)) :=
      .items known short within number spelled
    rw [← left, number] at several
    refine ⟨done _ _ several, ?_⟩
    have behind : used = (front ++ xs.flatMap p.encode).length := by
      rw [List.length_append, spelled.length_eq]
    rw [left, behind, List.drop_left]

/-- Two words of opposite sign and their number, in the middle of a buffer. The count would admit
another item, and the limit would not. -/
theorem readField_primitive_words :
    let r : Reader := {
      limits := { maxArrayLen := 2 }
      source := ⟨some [9, 2, 0xFF, 0xFF, 0x34, 0x12, 7, 7], 1⟩
      frames := [{}] }
    r.readField (.primitive .s16) 3 (some .u8) =
      (.ok (), { r with
        source := ⟨r.source.buffer, 6⟩
        frames := [{ value := some (.array [.scalar (.i32 (-1)), .scalar (.i32 0x1234)]) }] }) := by
  intro r
  obtain ⟨_, _, _, _, several⟩ :=
    readField_primitive (r := r) rfl rfl .s16 3 (some .u8)
  let xs : List Int16 := [-1, 0x1234]
  have spelled : (LengthWidth.write .u8 2) ++ xs.flatMap (encode .s16) ++ [7, 7] =
      [2, 0xFF, 0xFF, 0x34, 0x12, 7, 7] := by decide
  have known : Announces 3 (some .u8) 2 (LengthWidth.write .u8 2) := .carried (by decide)
  exact (several xs 2 _ [7, 7] known rfl (by decide) (by decide) spelled.symm).1

end Reader

end PortWire
