import PortWire.Proofs.Reader.CompiledElement
import PortWire.Proofs.Reader.Trace

/-!
# Literal lengths

An element with a literal length other than zero takes that many items, whatever the width of the
length is. A literal length of zero is not told from the absence of an array part: the element is
read as a scalar and takes the bytes of one item.
-/

namespace PortWire

/-- The same buffer, a number of bytes further on. -/
def Source.advance (s : Source) (n : Nat) : Source :=
  { s with pos := s.pos + n }

theorem Variant.elementSize?_of_fieldType? {variant : Variant} {type : FieldType}
    (h : variant.fieldType? = some type) : variant.elementSize? = some type.itemSize := by
  cases variant <;> cases h <;> rfl

namespace FieldType

variable {limits : Limits} {type : FieldType} {data : List UInt8} {pos : Nat} {v : Value}
  {source : Source}

theorem length_gather (p : Primitive) (n : Nat) (field : List UInt8) :
    ∃ items, (primitive p).gather n field = .array items ∧ items.length = n := by
  refine ⟨_, rfl, ?_⟩
  rw [Primitive.ofWords_eq, List.reverse_nil, List.nil_append, List.length_map, List.length_range]

theorem gather_of_read {n : UInt32} (items : type.itemwise → n ≠ 0)
    (h : type.read limits n none ⟨some data, pos⟩ = .ok (v, source)) :
    v = type.gather n.toNat ((data.drop pos).take (n.toNat * type.itemSize)) ∧
      source = ⟨some data, pos + n.toNat * type.itemSize⟩ := by
  rw [read_fixed limits items] at h
  split at h
  · cases h
  · split at h
    · cases h
      exact ⟨rfl, rfl⟩
    · cases h

/-- Whatever its type, a field without an array part is a scalar of one item. -/
theorem scalar_of_read
    (h : type.read limits (Reader.executedCount 0 type) none ⟨some data, pos⟩ =
      .ok (v, source)) :
    ∃ s, v = .scalar s ∧ source = ⟨some data, pos + type.itemSize⟩ := by
  cases type with
  | primitive p =>
    rw [Reader.executedCount, read_scalar] at h
    split at h
    · cases h
      exact ⟨_, rfl, rfl⟩
    · cases h
  | str =>
    obtain ⟨value, moved⟩ := gather_of_read (n := 1) (fun _ => by decide) h
    exact ⟨_, value, moved⟩
  | bytes =>
    obtain ⟨value, moved⟩ := gather_of_read (n := 1) (fun _ => by decide) h
    exact ⟨_, value, moved⟩

end FieldType

namespace Reader

variable {e : Element} {before after : Reader} {v : Value}

/-- With a literal length other than zero, the value is gathered from that many items. -/
theorem readElement_literal {a : ArrayPart} (arrayed : e.array = some a) {n : UInt32}
    (literal : a.length = some n) (nonzero : n ≠ 0)
    (h : before.readElement e = (.ok v, after)) :
    ∃ type data, e.variant.fieldType? = some type ∧ before.source.buffer = some data ∧
      v = type.gather n.toNat ((data.drop before.source.pos).take (n.toNat * type.itemSize)) ∧
      after.source = before.source.advance (n.toNat * type.itemSize) := by
  obtain ⟨type, data, htype, buffer, hread⟩ := readElement_eq_ok h
  refine ⟨type, data, htype, buffer, ?_⟩
  obtain ⟨limits, ⟨_, pos⟩, frames⟩ := before
  obtain rfl := buffer
  simp only [extent, arrayed, literal] at hread
  rw [FieldType.executedCount_of_ne_zero nonzero] at hread
  exact FieldType.gather_of_read (fun _ => nonzero) hread

/-- Without an array part the value is a scalar, which takes the bytes of one item. -/
theorem readElement_scalar (plain : e.array = none) (h : before.readElement e = (.ok v, after)) :
    ∃ type s, e.variant.fieldType? = some type ∧ v = .scalar s ∧
      after.source = before.source.advance type.itemSize := by
  obtain ⟨type, data, htype, buffer, hread⟩ := readElement_eq_ok h
  obtain ⟨limits, ⟨_, pos⟩, frames⟩ := before
  obtain rfl := buffer
  simp only [extent, plain] at hread
  obtain ⟨s, value, source⟩ := FieldType.scalar_of_read hread
  exact ⟨type, s, htype, value, source⟩

/-- A literal length of zero counts as no array part at all. -/
theorem readElement_zero {a : ArrayPart} (arrayed : e.array = some a)
    (literal : a.length = some 0) (r : Reader) :
    r.readElement e = r.readElement { e with array := none } := by
  have same : extent e = extent { e with array := none } := by
    simp only [extent, arrayed, literal]
  rw [readElement_eq, readElement_eq, same]

/-- What the value of an array of `n` items looks like, and how far reading it goes. A text or byte
field is a value of its own. -/
structure ReadsItems (e : Element) (n : Nat) (before : Reader) (v : Value) (after : Reader) :
    Prop where
  consumed : ∃ size, e.variant.elementSize? = some size ∧
    after.source = before.source.advance (n * size)
  items : ∀ p, e.variant.fieldType? = some (.primitive p) →
    ∃ items, v = .array items ∧ items.length = n

theorem readsItems_of_literal {a : ArrayPart} (arrayed : e.array = some a) {n : UInt32}
    (literal : a.length = some n) (nonzero : n ≠ 0)
    (h : before.readElement e = (.ok v, after)) : ReadsItems e n.toNat before v after := by
  obtain ⟨type, data, htype, _, rfl, moved⟩ := readElement_literal arrayed literal nonzero h
  refine ⟨⟨_, Variant.elementSize?_of_fieldType? htype, moved⟩, ?_⟩
  intro p hp
  obtain rfl : type = .primitive p := Option.some.inj (htype.symm.trans hp)
  exact FieldType.length_gather p _ _

/-- In every program that decodes, a run that executes an element with a literal length takes
exactly that many items, unless the length is zero. A length of zero makes the element a scalar.
Every run that succeeds has executed all its elements, and has their values in their order. -/
theorem literal_lengths_executed {image : List UInt8} {program : DecodedProgram}
    (decoded : DecodedProgram.decode image = .ok program) {earlier later : List LocatedElement}
    {e : LocatedElement} (listed : program.elements = earlier ++ e :: later) {a : ArrayPart}
    (arrayed : e.array = some a) {n : UInt32} (literal : a.length = some n) :
    n ≤ a.width.maxLen ∧
      (∀ r before v after, Executes r image earlier e before v after →
        (n ≠ 0 → ReadsItems e.toElement n.toNat before v after) ∧
        (n = 0 → before.readElement { e.toElement with array := none } = (.ok v, after) ∧
          ∃ size s, e.variant.elementSize? = some size ∧ v = .scalar s ∧
            after.source = before.source.advance size)) ∧
      ∀ r value final, run image r = (.ok value, final) →
        ∃ before v after first second, Executes r image earlier e before v after ∧
          first.length = earlier.length ∧ second.length = later.length ∧
          value = collect (first ++ v :: second) := by
  refine ⟨?_, ?_, fun r value final ran => executes_of_run ran decoded listed⟩
  · have member : e ∈ program.elements := by
      rw [listed]
      exact List.mem_append_right _ List.mem_cons_self
    have proper := (DecodedProgram.proper_of_decode decoded e member).array a arrayed
    rw [ArrayPart.Proper, literal] at proper
    exact proper.2
  · intro r before v after executes
    refine ⟨fun nonzero => readsItems_of_literal arrayed literal nonzero executes.reads, ?_⟩
    rintro rfl
    have plain := (readElement_zero arrayed literal before).symm.trans executes.reads
    obtain ⟨type, s, htype, value, moved⟩ := readElement_scalar rfl plain
    exact ⟨plain, _, s, Variant.elementSize?_of_fieldType? htype, value, moved⟩

/-- Two items, whose number is written in two bytes, behind an array of no items. -/
theorem literal_length_behind_empty :
    let image : List UInt8 :=
      [1, 0, 0, 0, 0, 0, 0, 0x80, 0x02, 0x00, 0xA8, 0x0A, 0x02, 0x00]
    let empty : LocatedElement := ⟨⟨.unpack, .u8, some ⟨.u8, false, some 0⟩⟩, 7⟩
    let pair : LocatedElement := ⟨⟨.unpack, .s16, some ⟨.u16, false, some 2⟩⟩, 10⟩
    let r : Reader := start [7, 0xFF, 0xFF, 0x34, 0x12, 9] {}
    DecodedProgram.decode image = .ok ⟨Header.placeholder .unpack, [empty, pair]⟩ ∧
      ∃ before v after, Executes r image [empty] pair before v after ∧
        ReadsItems pair.toElement 2 before v after := by
  intro image empty pair r
  have proper : ∀ e ∈ [empty.toElement, pair.toElement], e.Proper := by decide
  have spelled : (Header.placeholder .unpack).encode ++
      encodeStream [empty.toElement, pair.toElement] = image := by decide
  have decoded : DecodedProgram.decode image = .ok ⟨Header.placeholder .unpack, [empty, pair]⟩ := by
    rw [← spelled, DecodedProgram.decode_encodeStream rfl proper]
    rfl
  have listed : [empty, pair] = [empty] ++ pair :: [] := rfl
  have law := literal_lengths_executed decoded listed rfl rfl
  have accepted : ∃ value, (run image r).1 = .ok value := by
    have begun : r.source.buffer = some [7, 0xFF, 0xFF, 0x34, 0x12, 9] := rfl
    simp only [run, begun, decoded]
    exact ⟨_, rfl⟩
  obtain ⟨value, ran⟩ := accepted
  obtain ⟨before, v, after, _, _, executes, _⟩ := law.2.2 r value _ (Prod.ext ran rfl)
  exact ⟨decoded, before, v, after, executes, (law.2.1 r before v after executes).1 (by decide)⟩

/-- An array of no items takes a byte and yields a number. -/
theorem empty_array_reads_scalar :
    let image : List UInt8 := [1, 0, 0, 0, 0, 0, 0, 0x80, 0x02, 0x00]
    let empty : LocatedElement := ⟨⟨.unpack, .u8, some ⟨.u8, false, some 0⟩⟩, 7⟩
    let r : Reader := start [7] {}
    let after : Reader := ⟨{}, ⟨some [7], 1⟩, [{}]⟩
    DecodedProgram.decode image = .ok ⟨Header.placeholder .unpack, [empty]⟩ ∧
      run image r = (.ok (.scalar (.u32 7)), after) ∧
      Executes r image [] empty r (.scalar (.u32 7)) after ∧
      ¬ ReadsItems empty.toElement 0 r (.scalar (.u32 7)) after := by
  intro image empty r after
  have proper : empty.toElement.Proper := by decide
  have spelled : (Header.placeholder .unpack).encode ++ empty.toElement.encode = image := by decide
  have decoded : DecodedProgram.decode image = .ok ⟨Header.placeholder .unpack, [empty]⟩ := by
    rw [← spelled, DecodedProgram.decode_single rfl proper]
    rfl
  refine ⟨decoded, ?_, ⟨⟨rfl, _, decoded, ?_, by decide⟩, ?_, ⟨[], .done⟩, rfl⟩, ?_⟩
  · rw [run_single rfl decoded]
    rfl
  · exact List.cons_ne_nil _ _
  · exact ⟨_, [], decoded, rfl⟩
  · intro exact
    obtain ⟨items, value, _⟩ := exact.items .u8 rfl
    cases value

end Reader

end PortWire
