import PortWire.Reader

/-!
# Reading what is left

Once reading has begun, a step sees only the bytes behind the position. Each reading step is put
here in terms of these bytes: what it yields, how many of them it takes, and which failure comes
first.
-/

namespace PortWire

/-- The bytes from the position on. -/
def Source.rest (s : Source) : List UInt8 :=
  match s.buffer with
  | none => []
  | some data => data.drop s.pos

namespace Take

variable {α β : Type}

theorem bind_apply (first : Take α) (next : α → Take β) (s : Source) :
    (first >>= next) s =
      match first s with
      | .error e => .error e
      | .ok (a, s) => next a s := by
  cases h : first s <;> simp only [bind, StateT.bind, h, Except.bind]

theorem pure_apply (a : α) (s : Source) : (pure a : Take α) s = .ok (a, s) :=
  rfl

theorem bytes_begun (n : Nat) (data : List UInt8) (pos : Nat) :
    bytes n ⟨some data, pos⟩ =
      if n ≤ (data.drop pos).length then
        .ok ((data.drop pos).take n, ⟨some data, pos + n⟩)
      else
        .error (.pastEnd n (data.drop pos).length) := by
  simp only [bytes, Source.remaining, List.length_drop]
  rfl

theorem word_begun (size : Nat) (data : List UInt8) (pos : Nat) :
    word size ⟨some data, pos⟩ =
      if size ≤ (data.drop pos).length then
        .ok (LittleEndian.read ((data.drop pos).take size), ⟨some data, pos + size⟩)
      else
        .error (.pastEnd size (data.drop pos).length) := by
  rw [word, bind_apply, bytes_begun]
  by_cases enough : size ≤ (data.drop pos).length
  · simp only [enough, if_true, pure_apply]
  · simp only [enough, if_false]

theorem arrayLength_fixed (limits : Limits) (count : UInt32) (s : Source) :
    arrayLength limits count none s =
      if count ≤ limits.maxArrayLen then .ok (count, s)
      else .error (.limit (.arrayLen count limits.maxArrayLen)) := by
  have within : ¬ count < count := UInt32.lt_irrefl count
  rw [arrayLength, length, bind_apply, pure_apply]
  simp only [within, if_false, Limits.checkArrayLen]
  split <;> rfl

theorem arrayLength_carried (limits : Limits) (count : UInt32) (width : LengthWidth)
    (data : List UInt8) (pos : Nat) :
    arrayLength limits count (some width) ⟨some data, pos⟩ =
      if width.bytes ≤ (data.drop pos).length then
        let length := UInt32.ofNat (LittleEndian.read ((data.drop pos).take width.bytes))
        if count < length then .error (.tooLong length count)
        else if length ≤ limits.maxArrayLen then .ok (length, ⟨some data, pos + width.bytes⟩)
        else .error (.limit (.arrayLen length limits.maxArrayLen))
      else
        .error (.pastEnd width.bytes (data.drop pos).length) := by
  rw [arrayLength, length, bind_apply, bind_apply, word_begun]
  by_cases enough : width.bytes ≤ (data.drop pos).length
  · simp only [enough, if_true, pure_apply, Limits.checkArrayLen]
    split
    · rfl
    · split <;> rfl
  · simp only [enough, if_false]

/-- The length of an array is the one that stands there, and finding it only moves on. -/
theorem length_of_arrayLength {limits : Limits} {count n : UInt32} {carried : Option LengthWidth}
    {data : List UInt8} {pos : Nat} {source : Source}
    (h : arrayLength limits count carried ⟨some data, pos⟩ = .ok (n, source)) :
    length count carried ⟨some data, pos⟩ = .ok (n, source) ∧
      ∃ pos', source = ⟨some data, pos'⟩ := by
  cases carried with
  | none =>
    rw [arrayLength_fixed] at h
    split at h
    · cases h
      exact ⟨rfl, pos, rfl⟩
    · cases h
  | some width =>
    rw [arrayLength_carried] at h
    rw [length, bind_apply, word_begun]
    by_cases enough : width.bytes ≤ (data.drop pos).length
    · simp only [if_pos enough] at h ⊢
      split at h
      · cases h
      · split at h
        · cases h
          exact ⟨rfl, _, rfl⟩
        · cases h
    · rw [if_neg enough] at h
      cases h

end Take

namespace Primitive

/-- The values of `n` words are those of the consecutive pieces. -/
theorem ofWords_eq (p : Primitive) (found : List Value) (n : Nat) (bs : List UInt8) :
    p.ofWords found n bs = found.reverse ++ (List.range n).map fun i =>
      .scalar (p.ofWord (LittleEndian.read ((bs.drop (i * p.size)).take p.size))) := by
  induction n generalizing found bs with
  | zero => simp [ofWords]
  | succ n ih =>
    rw [ofWords, ih, List.range_succ_eq_map, List.map_cons, List.map_map]
    simp [List.drop_drop, Nat.succ_mul, Function.comp_def, Nat.add_comm]

end Primitive

namespace FieldType

/-- Data bytes of one item of a field. -/
def itemSize : FieldType → Nat
  | .primitive p => p.size
  | .str | .bytes => 1

/-- The items are values of their own, and their number is subject to the limit. -/
def itemwise : FieldType → Bool
  | .primitive _ => true
  | .str | .bytes => false

/-- How many items a field has that is no scalar. -/
def itemCount (limits : Limits) (count : UInt32) (carried : Option LengthWidth) :
    FieldType → Take UInt32
  | .primitive _ => Take.arrayLength limits count carried
  | .str | .bytes => fieldSize limits count carried

/-- The value of a field of `n` items. -/
def gather (n : Nat) (field : List UInt8) : FieldType → Value
  | .primitive p => .array (p.ofWords [] n field)
  | .str => .scalar (.str (FixedText.ofField field).text)
  | .bytes => .scalar (.bytes field)

theorem read_scalar (limits : Limits) (p : Primitive) (data : List UInt8) (pos : Nat) :
    (primitive p).read limits 0 none ⟨some data, pos⟩ =
      if p.size ≤ (data.drop pos).length then
        .ok (.scalar (p.ofWord (LittleEndian.read ((data.drop pos).take p.size))),
          ⟨some data, pos + p.size⟩)
      else
        .error (.pastEnd p.size (data.drop pos).length) := by
  simp only [read, Primitive.read, and_self, if_true]
  rw [Take.bind_apply, Take.bind_apply, Take.word_begun]
  by_cases enough : p.size ≤ (data.drop pos).length
  · simp only [enough, if_true, Take.pure_apply]
  · simp only [enough, if_false]

/-- Every other field is its item count followed by that many items. -/
theorem read_items (limits : Limits) {count : UInt32} {carried : Option LengthWidth}
    {type : FieldType} (items : ∀ p, type = .primitive p → ¬ (count = 0 ∧ carried = none)) :
    type.read limits count carried = do
      let n ← type.itemCount limits count carried
      let field ← Take.bytes (n.toNat * type.itemSize)
      return type.gather n.toNat field := by
  cases type with
  | primitive p =>
    simp only [read, items p rfl, if_false]
    rfl
  | str =>
    simp only [itemSize, Nat.mul_one]
    rfl
  | bytes =>
    simp only [itemSize, Nat.mul_one]
    rfl

theorem itemCount_fixed (limits : Limits) (n : UInt32) (type : FieldType) (s : Source) :
    type.itemCount limits n none s =
      if type.itemwise ∧ limits.maxArrayLen < n then
        .error (.limit (.arrayLen n limits.maxArrayLen))
      else
        .ok (n, s) := by
  cases type with
  | primitive p =>
    simp only [itemCount, itemwise, Take.arrayLength_fixed, true_and]
    by_cases within : n ≤ limits.maxArrayLen
    · rw [if_pos within, if_neg (UInt32.not_lt.mpr within)]
    · rw [if_neg within, if_pos (UInt32.not_le.mp within)]
  | str => rfl
  | bytes => rfl

theorem itemCount_carried (limits : Limits) (count : UInt32) (w : LengthWidth) (type : FieldType) :
    type.itemCount limits count (some w) = Take.arrayLength limits count (some w) := by
  cases type <;> rfl

/-- A field whose size is given outright. -/
theorem read_fixed (limits : Limits) {n : UInt32} {type : FieldType}
    (items : type.itemwise → n ≠ 0) (data : List UInt8) (pos : Nat) :
    type.read limits n none ⟨some data, pos⟩ =
      if type.itemwise ∧ limits.maxArrayLen < n then
        .error (.limit (.arrayLen n limits.maxArrayLen))
      else if n.toNat * type.itemSize ≤ (data.drop pos).length then
        .ok (type.gather n.toNat ((data.drop pos).take (n.toNat * type.itemSize)),
          ⟨some data, pos + n.toNat * type.itemSize⟩)
      else
        .error (.pastEnd (n.toNat * type.itemSize) (data.drop pos).length) := by
  have hitems : ∀ p, type = .primitive p → ¬ (n = 0 ∧ (none : Option LengthWidth) = none) := by
    rintro p rfl ⟨hzero, _⟩
    exact items rfl hzero
  rw [read_items limits hitems, Take.bind_apply, itemCount_fixed]
  by_cases beyond : type.itemwise ∧ limits.maxArrayLen < n
  · simp only [if_pos beyond]
  · simp only [if_neg beyond]
    rw [Take.bind_apply, Take.bytes_begun]
    by_cases enough : n.toNat * type.itemSize ≤ (data.drop pos).length
    · simp only [if_pos enough, Take.pure_apply]
    · simp only [if_neg enough]

/-- A field whose size comes with the data. -/
theorem read_carried (limits : Limits) (count : UInt32) (w : LengthWidth) (type : FieldType)
    (data : List UInt8) (pos : Nat) :
    type.read limits count (some w) ⟨some data, pos⟩ =
      if w.bytes ≤ (data.drop pos).length then
        let length := UInt32.ofNat (LittleEndian.read ((data.drop pos).take w.bytes))
        let field := (data.drop pos).drop w.bytes
        if count < length then .error (.tooLong length count)
        else if limits.maxArrayLen < length then
          .error (.limit (.arrayLen length limits.maxArrayLen))
        else if length.toNat * type.itemSize ≤ field.length then
          .ok (type.gather length.toNat (field.take (length.toNat * type.itemSize)),
            ⟨some data, pos + w.bytes + length.toNat * type.itemSize⟩)
        else
          .error (.pastEnd (length.toNat * type.itemSize) field.length)
      else
        .error (.pastEnd w.bytes (data.drop pos).length) := by
  have hitems : ∀ p, type = .primitive p → ¬ (count = 0 ∧ some w = none) := by
    rintro p rfl ⟨_, hnone⟩
    cases hnone
  rw [read_items limits hitems, Take.bind_apply, itemCount_carried, Take.arrayLength_carried]
  by_cases enough : w.bytes ≤ (data.drop pos).length
  · simp only [if_pos enough]
    generalize UInt32.ofNat (LittleEndian.read ((data.drop pos).take w.bytes)) = length
    by_cases long : count < length
    · simp only [if_pos long]
    · simp only [if_neg long]
      by_cases within : length ≤ limits.maxArrayLen
      · simp only [if_pos within, if_neg (UInt32.not_lt.mpr within)]
        rw [Take.bind_apply, Take.bytes_begun, ← List.drop_drop]
        by_cases full : length.toNat * type.itemSize ≤ ((data.drop pos).drop w.bytes).length
        · simp only [if_pos full, Take.pure_apply]
        · simp only [if_neg full]
      · simp only [if_neg within, if_pos (UInt32.not_le.mp within)]
  · simp only [if_neg enough]

theorem read_unannounced {limits : Limits} {type : FieldType} {data : List UInt8} {pos : Nat}
    {w : LengthWidth} (count : UInt32) (missing : w.read? (data.drop pos) = none) :
    type.read limits count (some w) ⟨some data, pos⟩ =
      .error (.pastEnd w.bytes (data.drop pos).length) := by
  have short := LengthWidth.read?_eq_none_iff.mp missing
  rw [read_carried, if_neg (Nat.not_le.mpr short)]

/-- A field whose size is there. -/
theorem read_announced {limits : Limits} {type : FieldType} {data : List UInt8} {pos : Nat}
    {w : LengthWidth} (count : UInt32) {n : UInt32} (announced : w.read? (data.drop pos) = some n) :
    type.read limits count (some w) ⟨some data, pos⟩ =
      if count < n then .error (.tooLong n count)
      else if limits.maxArrayLen < n then .error (.limit (.arrayLen n limits.maxArrayLen))
      else if n.toNat * type.itemSize ≤ ((data.drop pos).drop w.bytes).length then
        .ok (type.gather n.toNat (((data.drop pos).drop w.bytes).take (n.toNat * type.itemSize)),
          ⟨some data, pos + w.bytes + n.toNat * type.itemSize⟩)
      else
        .error (.pastEnd (n.toNat * type.itemSize) ((data.drop pos).drop w.bytes).length) := by
  have present : w.bytes ≤ (data.drop pos).length := by
    refine Nat.not_lt.mp fun short => ?_
    rw [LengthWidth.read?_eq_none_iff.mpr short] at announced
    cases announced
  rw [LengthWidth.read?, if_pos present] at announced
  obtain rfl := Option.some.inj announced
  rw [read_carried, if_pos present]

/-- Reading a field only moves on. -/
theorem source_of_read {limits : Limits} {count : UInt32} {carried : Option LengthWidth}
    {type : FieldType} {data : List UInt8} {pos : Nat} {v : Value} {source : Source}
    (h : type.read limits count carried ⟨some data, pos⟩ = .ok (v, source)) :
    ∃ pos', source = ⟨some data, pos'⟩ := by
  cases carried with
  | some width =>
    rw [read_carried] at h
    split at h
    · simp only at h
      split at h
      · cases h
      · split at h
        · cases h
        · split at h
          · cases h
            exact ⟨_, rfl⟩
          · cases h
    · cases h
  | none =>
    by_cases items : type.itemwise → count ≠ 0
    · rw [read_fixed limits items] at h
      split at h
      · cases h
      · split at h
        · cases h
          exact ⟨_, rfl⟩
        · cases h
    · obtain ⟨itemwise, zero⟩ := Classical.not_imp.mp items
      obtain rfl := Decidable.not_not.mp zero
      cases type with
      | primitive p =>
        rw [read_scalar] at h
        split at h
        · cases h
          exact ⟨_, rfl⟩
        · cases h
      | str => cases itemwise
      | bytes => cases itemwise

end FieldType

namespace Reader

/-- The count that a program element asks for; a text or byte field has at least one byte. -/
def executedCount (count : UInt32) : FieldType → UInt32
  | .primitive _ => count
  | .str | .bytes => max count 1

/-- A program element is read into a fresh frame, which is left empty. -/
theorem readElement_eq (e : Element) (r : Reader) :
    r.readElement e =
      match e.variant.fieldType? with
      | none => (.error (.notExecutable e.variant), { r with frames := [{}] })
      | some type =>
        match type.read r.limits (executedCount (extent e).1 type) (extent e).2 r.source with
        | .error err => (.error err, { r with frames := [{}] })
        | .ok (v, source) => (.ok v, { r with source := source, frames := [{}] }) := by
  have hexecute : ∀ type, e.variant.fieldType? = some type →
      execute e { r with frames := [{}] } =
        readField type (executedCount (extent e).1 type) (extent e).2
          { r with frames := [{}] } := by
    intro type htype
    simp only [execute, htype]
    cases type <;> rfl
  cases htype : e.variant.fieldType? with
  | none => simp only [readElement, execute, htype]
  | some type =>
    simp only [readElement, hexecute type htype, readField, take]
    cases type.read r.limits (executedCount (extent e).1 type) (extent e).2 r.source with
    | error err => rfl
    | ok result => rfl

theorem run_single {r : Reader} {data : List UInt8} (begun : r.source.buffer = some data)
    {image : List UInt8} {h : Header} {e : LocatedElement}
    (decoded : DecodedProgram.decode image = .ok ⟨h, [e]⟩) :
    r.run image =
      if r.source.remaining < h.dataSize.toNat then
        (.error (.pastEnd h.dataSize.toNat r.source.remaining), r)
      else
        match r.readElement e.toElement with
        | (.error err, failed) => (.error err, { failed with source := r.source })
        | (.ok v, r) => (.ok v, r) := by
  simp only [run, begun, decoded, readElements]
  split
  · rfl
  · cases r.readElement e.toElement with
    | mk result after => cases result <;> rfl

end Reader

end PortWire
