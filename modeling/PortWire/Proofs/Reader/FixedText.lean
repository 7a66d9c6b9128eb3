import Mathlib.Data.List.TakeWhile
import PortWire.Proofs.Reader.LiteralLength
import PortWire.Proofs.Utf8.Pieces

/-!
# Text fields of fixed size

A text without zero characters is read back from a field that it fills, and from one that goes on
behind it with a zero byte and anything. Of any other field, too, only the bytes in front of the
first zero byte count, and the text is that of their pieces.
-/

namespace PortWire

namespace FixedText

/-- The bytes in front of the first zero byte. -/
def content (field : List UInt8) : List UInt8 :=
  field.takeWhile fun b => b != 0

/-- The field holds the text on its own, or in front of a zero byte and padding. -/
def Holds (field : List UInt8) (s : String) : Prop :=
  field = Utf8.encode s ∨ ∃ padding, field = Utf8.encode s ++ 0 :: padding

theorem zero_notMem_content (field : List UInt8) : 0 ∉ content field := by
  intro member
  have nonzero := List.mem_takeWhile_imp member
  cases nonzero

theorem content_of_holds {field : List UInt8} {s : String} (holds : Holds field s)
    (noNul : '\x00' ∉ s.toList) : content field = Utf8.encode s := by
  have nonzero : ∀ b ∈ Utf8.encode s, (b != 0) = true := by
    intro b member
    rw [bne_iff_ne]
    rintro rfl
    exact noNul (Utf8.zero_mem_encode.mp member)
  rcases holds with rfl | ⟨padding, rfl⟩
  · exact List.takeWhile_eq_self_iff.mpr nonzero
  · exact (List.takeWhile_append_of_pos nonzero).trans (List.append_nil _)

theorem text_ofField (field : List UInt8) :
    (ofField field).text = Utf8.decodeLossy (content field) :=
  rfl

theorem encoding_ofField (field : List UInt8) :
    (ofField field).encoding = .ascii ↔ ∀ b ∈ content field, b < 0x80 := by
  change (if (content field).all fun b => b < 0x80 then TextEncoding.ascii else .utf8) = .ascii ↔ _
  simp

/-- A text is found again in a field that holds it. -/
theorem ofField_of_holds {field : List UInt8} {s : String} (holds : Holds field s)
    (noNul : '\x00' ∉ s.toList) :
    (ofField field).text = s ∧
      ((ofField field).encoding = .ascii ↔ ∀ c ∈ s.toList, c.toNat < 0x80) := by
  rw [text_ofField, encoding_ofField, content_of_holds holds noNul]
  exact ⟨Utf8.decodeLossy_encode s, Utf8.ascii_encode_iff⟩

theorem ofField_congr {field other : List UInt8} (same : content other = content field) :
    ofField other = ofField field := by
  have both : ∀ f, ofField f = ⟨Utf8.decodeLossy (content f),
      if (content f).all fun b => b < 0x80 then .ascii else .utf8⟩ := fun _ => rfl
  rw [both, both, same]

end FixedText

namespace Reader

variable {r : Reader} {data field : List UInt8} {size : UInt32}

theorem readText_eq (begun : r.source.buffer = some data) (whole : field.length = size.toNat)
    {behind : List UInt8} (stands : r.source.rest = field ++ behind) :
    r.readText size =
      (.ok (FixedText.ofField field), { r with source := r.source.advance field.length }) := by
  obtain ⟨limits, ⟨_, pos⟩, frames⟩ := r
  obtain rfl := begun
  have left : data.drop pos = field ++ behind := stands
  have enough : size.toNat ≤ (data.drop pos).length := by
    rw [left, List.length_append, whole]
    exact Nat.le_add_right _ _
  simp only [readText, take]
  rw [Take.bind_apply, Take.bytes_begun, if_pos enough]
  simp only [Take.pure_apply, left, ← whole, List.take_left]
  rfl

theorem read_str_fixed (begun : r.source.buffer = some data) (whole : field.length = size.toNat)
    {behind : List UInt8} (stands : r.source.rest = field ++ behind) :
    FieldType.str.read r.limits size none r.source =
      .ok (.scalar (.str (FixedText.ofField field).text), r.source.advance field.length) := by
  obtain ⟨limits, ⟨_, pos⟩, frames⟩ := r
  obtain rfl := begun
  have left : data.drop pos = field ++ behind := stands
  have enough : size.toNat * FieldType.str.itemSize ≤ (data.drop pos).length := by
    rw [FieldType.itemSize, Nat.mul_one, left, List.length_append, whole]
    exact Nat.le_add_right _ _
  have single : ¬ FieldType.str.itemwise := Bool.false_ne_true
  rw [FieldType.read_fixed limits (absurd · single), if_neg (single ·.1), if_pos enough, left,
    FieldType.itemSize, Nat.mul_one, ← whole, List.take_left]
  rfl

/-- The number of bytes in front is found again if its width can hold it. -/
theorem read_str_announced (begun : r.source.buffer = some data)
    (whole : field.length = size.toNat) {w : LengthWidth} {behind : List UInt8}
    (stands : r.source.rest = w.write size ++ field ++ behind) (fits : size ≤ w.maxLen)
    {count : UInt32} (bounded : size ≤ count) (within : size ≤ r.limits.maxArrayLen) :
    FieldType.str.read r.limits count (some w) r.source =
      .ok (.scalar (.str (FixedText.ofField field).text),
        r.source.advance (w.bytes + field.length)) := by
  obtain ⟨limits, ⟨_, pos⟩, frames⟩ := r
  obtain rfl := begun
  have left : data.drop pos = w.write size ++ (field ++ behind) := by
    rw [← List.append_assoc]
    exact stands
  have announced : w.read? (data.drop pos) = some size := by
    rw [left]
    exact w.read?_write_of_le fits _
  have others : (data.drop pos).drop w.bytes = field ++ behind := by
    rw [left]
    exact List.drop_left' (w.length_write size)
  have enough : size.toNat * FieldType.str.itemSize ≤
      ((data.drop pos).drop w.bytes).length := by
    rw [FieldType.itemSize, Nat.mul_one, others, List.length_append, whole]
    exact Nat.le_add_right _ _
  rw [FieldType.read_announced count announced, if_neg (UInt32.not_lt.mpr bounded),
    if_neg (UInt32.not_lt.mpr within), if_pos enough, others, FieldType.itemSize, Nat.mul_one,
    ← whole, List.take_left, Nat.add_assoc]
  rfl

/-- A field whose bytes are there is taken whole, and what is found in it depends on the bytes in
front of its first zero byte only. A text without zero characters is found again, in ASCII just if
its characters are. In any case the text has no zero characters, and it is that of the pieces of
those bytes, with U+FFFD for each invalid piece. A field of the innermost frame gets the same text,
whether the size is given or stands in front of the field, as long as the bound and the limit admit
it. -/
theorem fixed_texts_exact (begun : r.source.buffer = some data)
    (whole : field.length = size.toNat) :
    let found := FixedText.ofField field
    let stored (inner : Frame) (below : List Frame) (used : Nat) : Reader :=
      ⟨r.limits, r.source.advance used,
        Frame.settle { inner with value := some (.scalar (.str found.text)) } below⟩
    (∀ s, '\x00' ∉ s.toList → FixedText.Holds field s →
        found.text = s ∧ (found.encoding = .ascii ↔ ∀ c ∈ s.toList, c.toNat < 0x80)) ∧
      ('\x00' ∉ found.text.toList ∧
        (∀ other, FixedText.content other = FixedText.content field →
          FixedText.ofField other = found) ∧
        ∃ pieces, Utf8.Pieces (FixedText.content field) pieces ∧
          (∀ others, Utf8.Pieces (FixedText.content field) others → others = pieces) ∧
          found.text = String.ofList (pieces.map fun p => p.getD '\uFFFD')) ∧
      (∀ behind, r.source.rest = field ++ behind →
        r.readText size = (.ok found, { r with source := r.source.advance field.length }) ∧
          ∀ inner below, r.frames = inner :: below →
            r.readField .str size none = (.ok (), stored inner below field.length)) ∧
      ∀ (w : LengthWidth) count behind, r.source.rest = w.write size ++ field ++ behind →
        size ≤ w.maxLen → size ≤ count → size ≤ r.limits.maxArrayLen →
          ∀ inner below, r.frames = inner :: below →
            r.readField .str count (some w) =
              (.ok (), stored inner below (w.bytes + field.length)) := by
  intro found stored
  refine ⟨?_, ⟨?_, ?_, ?_⟩, ?_, ?_⟩
  · exact fun s noNul holds => FixedText.ofField_of_holds holds noNul
  · exact Utf8.nul_notMem_decodeLossy (FixedText.zero_notMem_content field)
  · exact fun other same => FixedText.ofField_congr same
  · have only : ∀ others, Utf8.Pieces (FixedText.content field) others →
        others = Utf8.pieces (FixedText.content field) := fun others => Utf8.pieces_iff.mp
    exact ⟨_, Utf8.pieces_iff.mpr rfl, only, rfl⟩
  · intro behind stands
    refine ⟨readText_eq begun whole stands, ?_⟩
    intro inner below opened
    exact readField_of_read opened (read_str_fixed begun whole stands)
  · intro w count behind stands fits bounded within inner below opened
    exact readField_of_read opened (read_str_announced begun whole stands fits bounded within)

/-- Two characters with padding behind them, of given size, and the same with the size in front. -/
theorem padded_text_read :
    let field : List UInt8 := [0x4B, 0xC3, 0xB6, 0, 0xFF]
    let sized : Reader := { source := ⟨some (9 :: field ++ [7]), 1⟩, frames := [{}] }
    let prefixed : Reader := { sized with limits := { maxArrayLen := 5 },
                                          source := ⟨some (5 :: field ++ [7]), 0⟩ }
    (∃ found, sized.readText 5 = (.ok found, { sized with source := sized.source.advance 5 }) ∧
        found.text = "Kö" ∧ found.encoding ≠ .ascii) ∧
      prefixed.readField .str 6 (some .u8) =
        (.ok (), { prefixed with
          source := prefixed.source.advance 6
          frames := [{ value := some (.scalar (.str "Kö")) }] }) := by
  intro field sized prefixed
  have holds : FixedText.Holds field "Kö" := Or.inr ⟨[0xFF], by decide⟩
  obtain ⟨texts, _, given, _⟩ := @fixed_texts_exact sized _ field 5 rfl rfl
  obtain ⟨_, _, _, announced⟩ := @fixed_texts_exact prefixed _ field 5 rfl rfl
  obtain ⟨text, ascii⟩ := texts "Kö" (by decide) holds
  refine ⟨⟨_, (given [7] rfl).1, text, ?_⟩, ?_⟩
  · intro reported
    have small := ascii.mp reported 'ö' (by decide)
    exact absurd small (by decide)
  · have stored := announced .u8 6 [7] rfl (by decide) (by decide) (by decide) {} [] rfl
    rw [text] at stored
    exact stored

end Reader

end PortWire
