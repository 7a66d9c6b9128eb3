import PortWire.Proofs.Exchange.Structures
import PortWire.Proofs.Exchange.Values
import PortWire.Proofs.Json.Codec

/-!
# Texts that are read as what was written

What holds of documents holds of their texts: parsing the text of a value gives the value back, and
a text that has been read and written once stays as it is. For values this asks that no record has
two fields of one name, which is so for every value that was read, and that the text does not nest
as deep as the limit of the parser; files, layouts, nodes and decoded programs need nothing.
-/

namespace PortWire

open Codec Form

namespace Codec

variable (C : Codec) {α : Type} [Form C α]

/-- The value has a text, and it is read as that value. -/
def Survives (a : α) : Prop :=
  ∃ s, C.encode? a = some s ∧ C.decode? s = some a

/-- A text that is read is turned into the text of the value, which is read alike, and turning that
one again changes nothing. -/
def Settles (α : Type) [Form C α] : Prop :=
  ∀ s (a : α), C.decode? s = some a →
    ∃ s', C.normalize? α s = some s' ∧ C.encode? a = some s' ∧ C.decode? s' = some a ∧
      C.normalize? α s' = some s'

variable {C}

/-- Of a text that spells a document without nesting too deep, that document is parsed. -/
theorem decode?_of_spells [C.Standard] {t : Document} {s : String} (spells : t.Spells s.toList)
    (shallow : t.depth < recursionLimit) {a : α}
    (read : ∀ d, C.Shows d t → C.read? d = some a) : C.decode? s = some a := by
  obtain ⟨d, parsed, shown⟩ := Standard.exists_parse (C := C) spells shallow
  rw [decode?, parsed, Option.bind_some, read d shown]

theorem survives_of_read [C.Standard] {a : α} (shallow : (C.write a).depth < recursionLimit)
    (read : ∀ d, C.Shows d (C.write a) → C.read? d = some a) : C.Survives a := by
  obtain ⟨s, printed, spells⟩ := Standard.exists_render (C := C) (C.write a)
  exact ⟨s, printed, decode?_of_spells spells shallow read⟩

/-- It is enough that every value which is read survives. -/
theorem settles_of_survives (all : ∀ s (a : α), C.decode? s = some a → C.Survives a) :
    C.Settles α := by
  intro s a read
  obtain ⟨s', printed, again⟩ := all s a read
  refine ⟨s', ?_, printed, again, ?_⟩
  · rw [normalize?, read, Option.bind_some, printed]
  · rw [normalize?, again, Option.bind_some, printed]

theorem survives_of_lawful [C.Standard] {n : Nat} [Lawful C α n] (shallow : n < recursionLimit)
    (a : α) : C.Survives a :=
  survives_of_read (Nat.lt_of_le_of_lt (Lawful.depth_le a) shallow) fun _ => Lawful.read_shown

theorem settles_of_lawful [C.Standard] {n : Nat} [Lawful C α n] (shallow : n < recursionLimit) :
    C.Settles α :=
  settles_of_survives fun _ a _ => survives_of_lawful shallow a

end Codec

namespace Value

variable {C : Codec} [C.Standard] [C.Derived]

theorem survives_of_keyed {v : Value} (keyed : v.Keyed)
    (shallow : (C.write v).depth < recursionLimit) : C.Survives v :=
  survives_of_read shallow fun _ => read_writtenAs keyed (writtenAs_write v)

theorem settles : C.Settles Value := by
  refine settles_of_survives fun s v h => ?_
  obtain ⟨d, parsed, read⟩ := Option.bind_eq_some_iff.mp h
  obtain ⟨keyed, levels⟩ := sound_of_read read
  have written : (C.write v).depth = v.levels := depth_writtenAs (writtenAs_write v)
  have room := Standard.room_parse parsed
  exact survives_of_keyed keyed (by omega)

end Value

/-- Nothing that is exchanged as text is lost, whatever stands in its strings, as long as the text
does not nest as deep as the limit of the parser. -/
theorem text_round_trip (C : Codec) [C.Standard] [C.Derived] :
    ((∀ v : Value, v.Keyed → (C.write v).depth < recursionLimit → C.Survives v) ∧
      C.Settles Value) ∧
    ((∀ f : File, C.Survives f) ∧ C.Settles File) ∧
    ((∀ l : Layout, C.Survives l) ∧ C.Settles Layout) ∧
    ((∀ n : Node, C.Survives n) ∧ C.Settles Node) ∧
    ((∀ p : DecodedProgram, C.Survives p) ∧ C.Settles DecodedProgram) := by
  refine ⟨⟨fun _ => Value.survives_of_keyed, Value.settles⟩, ⟨?_, ?_⟩, ⟨?_, ?_⟩, ⟨?_, ?_⟩, ?_, ?_⟩
  · exact survives_of_lawful (by decide)
  · exact settles_of_lawful (by decide)
  · exact survives_of_lawful (by decide)
  · exact settles_of_lawful (by decide)
  · exact survives_of_lawful (by decide)
  · exact settles_of_lawful (by decide)
  · exact survives_of_lawful (by decide)
  · exact settles_of_lawful (by decide)

/-- Quotes, control characters and characters above 16 bits in names and strings, and the extremes
of the numbers. -/
def Value.nested : Value :=
  .record [
    ("b\"\\\x00\n", .array [.scalar (.i64 Int64.minValue), .scalar (.u64 0xFFFF_FFFF_FFFF_FFFF),
      .record [("", .scalar (.bytes [0, 255])), ("é", .scalar (.str "\x1f\"\u2028𝄞"))]]),
    ("a", .scalar (.i32 Int32.minValue)),
    ("", .record [])]

theorem nested_round_trip : Value.nested.Keyed ∧
    (Json.codec.write Value.nested).depth < recursionLimit ∧ Json.codec.Survives Value.nested := by
  have keyed : Value.nested.Keyed := by
    simp [Value.nested, Value.Keyed, Value.AllKeyed, Value.FieldsKeyed]
  have shallow : (Json.codec.write Value.nested).depth < recursionLimit := by decide
  exact ⟨keyed, shallow, (text_round_trip Json.codec).1.1 _ keyed shallow⟩

end PortWire
