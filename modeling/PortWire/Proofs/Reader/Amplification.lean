import PortWire.Proofs.Reader.LiteralLength
import PortWire.Proofs.Reader.Locality
import PortWire.Proofs.Utf8

/-!
# What data can grow into

Every value that a program yields was paid for with data. Each element takes at least one byte, and
at least one for every item, character or byte of what it yields, whatever lengths stand in the
program or in front of the data. So neither the elements of a program nor the nodes of its value can
outnumber the bytes that are there by more than a constant factor. Nothing is assumed of the limits.
-/

namespace PortWire

/-- A number or a flag counts one, a text its characters and a blob its bytes, but at least one. -/
def Scalar.size : Scalar → Nat
  | .str s => max 1 s.length
  | .bytes bs => max 1 bs.length
  | _ => 1

namespace Value

mutual

/-- A measure of values: `leaf` measures the scalars, and `whole` makes the measure of an array or a
record from the total of its parts. -/
def measure (leaf : Scalar → Nat) (whole : Nat → Nat) : Value → Nat
  | .scalar s => leaf s
  | .array items => whole (total leaf whole items)
  | .record fields => whole (totalFields leaf whole fields)

def total (leaf : Scalar → Nat) (whole : Nat → Nat) : List Value → Nat
  | [] => 0
  | v :: rest => v.measure leaf whole + total leaf whole rest

def totalFields (leaf : Scalar → Nat) (whole : Nat → Nat) : List (String × Value) → Nat
  | [] => 0
  | (_, v) :: rest => v.measure leaf whole + totalFields leaf whole rest

end

/-- The size of its parts, but at least one: an empty array counts one. -/
def size (v : Value) : Nat :=
  v.measure Scalar.size (max 1)

def sizes (values : List Value) : Nat :=
  total Scalar.size (max 1) values

/-- The number of values in a value, itself included. -/
def nodes (v : Value) : Nat :=
  v.measure (fun _ => 1) Nat.succ

def allNodes (values : List Value) : Nat :=
  total (fun _ => 1) Nat.succ values

variable {leaf : Scalar → Nat} {whole : Nat → Nat}

theorem le_total {values : List Value} (h : ∀ v ∈ values, 1 ≤ v.measure leaf whole) :
    values.length ≤ total leaf whole values := by
  induction values with
  | nil => exact Nat.zero_le _
  | cons v rest ih =>
    have first := h v List.mem_cons_self
    have others := ih fun w hw => h w (List.mem_cons_of_mem v hw)
    rw [total, List.length_cons]
    omega

theorem total_eq_length {values : List Value} (h : ∀ v ∈ values, v.measure leaf whole = 1) :
    total leaf whole values = values.length := by
  induction values with
  | nil => rfl
  | cons v rest ih =>
    rw [total, h v List.mem_cons_self, ih fun w hw => h w (List.mem_cons_of_mem v hw),
      List.length_cons, Nat.add_comm]

theorem one_le_size (v : Value) : 1 ≤ v.size := by
  cases v with
  | scalar s =>
    cases s with
    | str | bytes => exact Nat.le_max_left _ _
    | u32 | i32 | u64 | i64 | bool => exact Nat.le_refl 1
  | array items => exact Nat.le_max_left _ _
  | record fields => exact Nat.le_max_left _ _

/-- A value of scalars has at most two nodes for each unit of its size. -/
theorem nodes_le_of_flat {limits : Limits} {v : Value} (flat : v.Flat limits) :
    v.nodes ≤ 2 * v.size := by
  cases flat with
  | scalar s =>
    have positive := one_le_size (.scalar s)
    have one : (scalar s).nodes = 1 := rfl
    omega
  | @array items _ scalars =>
    have counted : allNodes items = items.length := by
      refine total_eq_length fun v hv => ?_
      obtain ⟨s, rfl⟩ := scalars v hv
      rfl
    have paid : items.length ≤ sizes items := le_total fun v _ => one_le_size v
    have itself : (array items).nodes = items.length + 1 := congrArg Nat.succ counted
    have whole : (array items).size = max 1 (sizes items) := rfl
    omega

theorem allNodes_le {values : List Value} (h : ∀ v ∈ values, v.nodes ≤ 2 * v.size) :
    allNodes values ≤ 2 * sizes values := by
  induction values with
  | nil => exact Nat.le_refl 0
  | cons v rest ih =>
    have first := h v List.mem_cons_self
    have others := ih fun w hw => h w (List.mem_cons_of_mem v hw)
    have nodes : allNodes (v :: rest) = v.nodes + allNodes rest := rfl
    have sizes : sizes (v :: rest) = v.size + sizes rest := rfl
    omega

end Value

theorem Primitive.size_ofWord (p : Primitive) (n : Nat) : (Value.scalar (p.ofWord n)).size = 1 := by
  cases p <;> rfl

namespace FieldType

variable {type : FieldType} {data : List UInt8} {pos : Nat} {v : Value} {source : Source}

theorem itemSize_pos (type : FieldType) : 0 < type.itemSize := by
  cases type with
  | primitive p => cases p <;> decide
  | str | bytes => exact Nat.one_pos

/-- A field grows to no more than the bytes of its items, but an empty one counts one. -/
theorem size_gather_le {n : Nat} {field : List UInt8} (within : field.length ≤ n * type.itemSize) :
    (type.gather n field).size ≤ max 1 (n * type.itemSize) := by
  cases type with
  | primitive p =>
    have scalars : ∀ v ∈ p.ofWords [] n field, v.size = 1 := by
      intro v hv
      rw [Primitive.ofWords_eq, List.reverse_nil, List.nil_append] at hv
      obtain ⟨i, _, rfl⟩ := List.mem_map.mp hv
      exact p.size_ofWord _
    have counted : Value.sizes (p.ofWords [] n field) = n := by
      rw [Value.sizes, Value.total_eq_length scalars, Primitive.ofWords_eq, List.reverse_nil,
        List.nil_append, List.length_map, List.length_range]
    have whole : ((primitive p).gather n field).size = max 1 (Value.sizes (p.ofWords [] n field)) :=
      rfl
    have paid : n ≤ n * (primitive p).itemSize := Nat.le_mul_of_pos_right n (itemSize_pos _)
    omega
  | str =>
    have kept : (field.takeWhile fun b => b != 0).length ≤ field.length :=
      (List.takeWhile_prefix _).length_le
    have shorter := Utf8.length_decodeLossy_le (field.takeWhile fun b => b != 0)
    have whole : (str.gather n field).size =
        max 1 (Utf8.decodeLossy (field.takeWhile fun b => b != 0)).length := rfl
    omega
  | bytes =>
    have whole : (bytes.gather n field).size = max 1 field.length := rfl
    omega

/-- Behind a length in the data the value is gathered from the bytes of its items. -/
theorem gather_of_read_carried {limits : Limits} {count : UInt32} {width : LengthWidth}
    (h : type.read limits count (some width) ⟨some data, pos⟩ = .ok (v, source)) :
    ∃ n, v = type.gather n (((data.drop pos).drop width.bytes).take (n * type.itemSize)) ∧
      source = ⟨some data, pos + width.bytes + n * type.itemSize⟩ := by
  rw [read_carried] at h
  split at h
  · simp only at h
    split at h
    · cases h
    · split at h
      · cases h
      · split at h
        · cases h
          exact ⟨_, rfl, rfl⟩
        · cases h
  · cases h

theorem size_le_of_read_carried {limits : Limits} {count : UInt32} {width : LengthWidth}
    (h : type.read limits count (some width) ⟨some data, pos⟩ = .ok (v, source)) :
    pos + v.size ≤ source.pos := by
  obtain ⟨n, rfl, rfl⟩ := gather_of_read_carried h
  have prefixed := width.bytes_pos
  have grown := @size_gather_le type n _
    (List.length_take_le (n * type.itemSize) ((data.drop pos).drop width.bytes))
  simp only
  omega

theorem size_le_of_read_fixed {limits : Limits} {n : UInt32} (nonzero : n ≠ 0)
    (h : type.read limits n none ⟨some data, pos⟩ = .ok (v, source)) :
    pos + v.size ≤ source.pos := by
  obtain ⟨rfl, rfl⟩ := gather_of_read (fun _ => nonzero) h
  have positive : 0 < n.toNat * type.itemSize :=
    Nat.mul_pos (Nat.pos_of_ne_zero fun zero => nonzero (UInt32.toNat_inj.mp zero))
      (itemSize_pos type)
  have grown := @size_gather_le type n.toNat _
    (List.length_take_le (n.toNat * type.itemSize) (data.drop pos))
  simp only
  omega

theorem size_le_of_read_scalar {limits : Limits} {p : Primitive}
    (h : (primitive p).read limits 0 none ⟨some data, pos⟩ = .ok (v, source)) :
    pos + v.size ≤ source.pos := by
  rw [read_scalar] at h
  split at h
  · cases h
    rw [p.size_ofWord]
    exact Nat.add_le_add_left (itemSize_pos (primitive p)) pos
  · cases h

/-- A program element takes at least one byte for each unit of size. Without the raise of a text or
byte field to one byte, an empty one would count one for nothing. -/
theorem size_le_of_executed {limits : Limits} {count : UInt32} {carried : Option LengthWidth}
    (h : type.read limits (Reader.executedCount count type) carried ⟨some data, pos⟩ =
      .ok (v, source)) : pos + v.size ≤ source.pos := by
  cases carried with
  | some width => exact size_le_of_read_carried h
  | none =>
    by_cases zero : count = 0
    · subst zero
      cases type with
      | primitive p => exact size_le_of_read_scalar h
      | str | bytes => exact size_le_of_read_fixed (n := 1) (by decide) h
    · rw [executedCount_of_ne_zero zero] at h
      exact size_le_of_read_fixed zero h

end FieldType

namespace Reader

/-- The values of the elements, out of the one that a program of `n` elements yields. -/
def parts (n : Nat) (v : Value) : List Value :=
  if n = 1 then [v] else v.items?.getD []

/-- The size of what a program of `n` elements yields. An array that only collects the values of
several elements counts nothing itself. -/
def resultSize (n : Nat) (v : Value) : Nat :=
  Value.sizes (parts n v)

theorem parts_collect (values : List Value) : parts values.length (collect values) = values := by
  match values with
  | [] => rfl
  | [v] => rfl
  | v :: w :: rest => rfl

theorem nodes_collect_le (values : List Value) :
    (collect values).nodes ≤ Value.allNodes values + 1 := by
  match values with
  | [] => exact Nat.le_refl 1
  | [v] => exact Nat.le_succ _
  | v :: w :: rest => exact Nat.le_refl _

variable {r after : Reader}

theorem paid_readElement {e : Element} {v : Value} (h : r.readElement e = (.ok v, after)) :
    r.source.pos + v.size ≤ after.source.pos ∧ v.nodes ≤ 2 * v.size := by
  obtain ⟨type, data, _, begun, hread⟩ := readElement_eq_ok h
  refine ⟨?_, Value.nodes_le_of_flat (FieldType.flat_of_read hread)⟩
  obtain ⟨limits, ⟨_, pos⟩, frames⟩ := r
  obtain rfl := begun
  exact FieldType.size_le_of_executed hread

/-- The trace of a run pays for all its values. -/
theorem Reads.paid {elements : List LocatedElement} {values : List Value}
    (trace : Reads r elements values after) :
    r.source.pos + Value.sizes values ≤ after.source.pos ∧
      ∀ v ∈ values, v.nodes ≤ 2 * v.size := by
  induction trace with
  | done => exact ⟨Nat.le_refl _, List.forall_mem_nil _⟩
  | @next r mid after e rest v values read _ ih =>
    obtain ⟨others, flat⟩ := ih
    obtain ⟨first, flatFirst⟩ := paid_readElement read
    refine ⟨?_, List.forall_mem_cons.mpr ⟨flatFirst, flat⟩⟩
    have together : Value.sizes (v :: values) = v.size + Value.sizes values := rfl
    omega

/-- Whatever a program and its data say, the value of a run that succeeds is no larger than the
bytes that it took, which were there. It has no more elements than bytes either, and no more than
two nodes for a byte, besides the array that may collect its values. -/
theorem run_size_le_consumed {image : List UInt8} {v : Value} (ran : r.run image = (.ok v, after)) :
    ∃ program used, DecodedProgram.decode image = .ok program ∧
      after.source = r.source.advance used ∧ used ≤ r.source.remaining ∧
      resultSize program.elements.length v ≤ used ∧
      program.elements.length ≤ used ∧ v.nodes ≤ 2 * used + 1 := by
  obtain ⟨begun, program, values, decoded, _, trace, rfl⟩ := run_eq_ok ran
  obtain ⟨data, begun⟩ := Option.isSome_iff_exists.mp begun
  obtain ⟨taken, stands, moved, _⟩ := trace.local begun
  obtain ⟨paid, flat⟩ := trace.paid
  have within : Value.sizes values ≤ taken.length := by
    rw [moved] at paid
    exact Nat.le_of_add_le_add_left paid
  have several : values.length ≤ Value.sizes values :=
    Value.le_total fun v _ => Value.one_le_size v
  refine ⟨program, taken.length, decoded, ?_, ?_, ?_, ?_, ?_⟩
  · rw [moved, Source.advance, begun]
  · have present := stands.length_le
    rw [List.length_drop] at present
    simpa only [Source.remaining, begun] using present
  · rw [resultSize, ← trace.length_eq, parts_collect]
    exact within
  · rw [← trace.length_eq]
    exact Nat.le_trans several within
  · have nodes := Value.allNodes_le flat
    have collected := nodes_collect_le values
    omega

/-- An array of no items and three plain bytes, each behind a length in the data. Five bytes are
taken for a size of four. -/
theorem run_size_le_consumed_mixed :
    let image : List UInt8 := [1, 0, 0, 0, 0, 0, 0, 0x88, 0x82, 0xD8, 0x82]
    let r : Reader := start [0, 3, 0xFF, 0xC3, 0x28, 9] {}
    ∃ v after, r.run image = (.ok v, after) ∧ after.source.pos = 5 ∧ resultSize 2 v = 4 ∧
      ∃ program used, DecodedProgram.decode image = .ok program ∧
        after.source = r.source.advance used ∧ used ≤ r.source.remaining ∧
        resultSize program.elements.length v ≤ used ∧
        program.elements.length ≤ used ∧ v.nodes ≤ 2 * used + 1 := by
  intro image r
  let es : List Element :=
    [⟨.unpack, .u16, some ⟨.u8, true, none⟩⟩, ⟨.unpack, .bytes, some ⟨.u8, true, none⟩⟩]
  let header : Header := Header.placeholder .unpack
  have proper : ∀ e ∈ es, e.Proper := by decide
  have spelled : header.encode ++ encodeStream es = image := by decide
  have decoded : DecodedProgram.decode image = .ok ⟨header, LocatedElement.locate 7 es⟩ := by
    rw [← spelled]
    exact DecodedProgram.decode_encodeStream rfl proper
  have accepted : ∃ v after, run image r = (.ok v, after) ∧ after.source.pos = 5 ∧
      resultSize 2 v = 4 := by
    have begun : r.source.buffer = some [0, 3, 0xFF, 0xC3, 0x28, 9] := rfl
    simp only [run, begun, decoded]
    exact ⟨_, _, rfl, rfl, rfl⟩
  obtain ⟨v, after, ran, moved, grown⟩ := accepted
  exact ⟨v, after, ran, moved, grown, run_size_le_consumed ran⟩

end Reader

end PortWire
