import PortWire.Instruction
import PortWire.LittleEndian

/-!
# Widths of array lengths

A length is held in one, two or four bytes. The width chosen for a length is the smallest whose
greatest value lies strictly above it, so the greatest value of a width always takes the next one
and the greatest 32-bit length has none.
-/

namespace PortWire

inductive LengthWidth
  | u8 | u16 | u32
  deriving DecidableEq, Repr

instance : Named LengthWidth where
  all := [.u8, .u16, .u32]
  name
    | .u8 => "U8"
    | .u16 => "U16"
    | .u32 => "U32"

namespace LengthWidth

def bytes : LengthWidth → Nat
  | .u8 => 1
  | .u16 => 2
  | .u32 => 4

def maxLen : LengthWidth → UInt32
  | .u8 => 0xFF
  | .u16 => 0xFFFF
  | .u32 => 0xFFFF_FFFF

def ofLen? (n : UInt32) : Option LengthWidth :=
  (Named.all : List LengthWidth).find? fun w => n < w.maxLen

def variant : LengthWidth → Variant
  | .u8 => .u8
  | .u16 => .u16
  | .u32 => .u32

def ofVariant? : Variant → Option LengthWidth
  | .u8 => some .u8
  | .u16 => some .u16
  | .u32 => some .u32
  | _ => none

/-- Bytes of a length beyond the width are dropped. -/
def write (w : LengthWidth) (n : UInt32) : List UInt8 :=
  LittleEndian.write w.bytes n.toNat

def read? (w : LengthWidth) (bs : List UInt8) : Option UInt32 :=
  if w.bytes ≤ bs.length then
    some (UInt32.ofNat (LittleEndian.read (bs.take w.bytes)))
  else
    none

@[simp]
theorem ofVariant?_variant (w : LengthWidth) : ofVariant? w.variant = some w := by
  cases w <;> rfl

theorem variant_of_ofVariant? {v : Variant} {w : LengthWidth} (h : ofVariant? v = some w) :
    w.variant = v := by
  cases v <;> cases h <;> rfl

theorem bytes_pos (w : LengthWidth) : 0 < w.bytes := by
  cases w <;> decide

/-- The greatest length is the greatest number that the bytes hold. -/
theorem toNat_maxLen (w : LengthWidth) : w.maxLen.toNat + 1 = LittleEndian.capacity w.bytes := by
  cases w <;> rfl

@[simp]
theorem length_write (w : LengthWidth) (n : UInt32) : (w.write n).length = w.bytes :=
  LittleEndian.length_write _ _

theorem read?_eq_none_iff {w : LengthWidth} {bs : List UInt8} :
    w.read? bs = none ↔ bs.length < w.bytes := by
  unfold read?
  split
  · simp only [reduceCtorEq, false_iff]
    omega
  · simp only [true_iff]
    omega

/-- Reading back what was written gives the length less what does not fit. -/
theorem read?_write_append (w : LengthWidth) (n : UInt32) (rest : List UInt8) :
    w.read? (w.write n ++ rest) =
      some (UInt32.ofNat (n.toNat % LittleEndian.capacity w.bytes)) := by
  have htake : (w.write n ++ rest).take w.bytes = w.write n := by
    rw [List.take_append_of_le_length (by simp), List.take_of_length_le (by simp)]
  rw [read?, if_pos (by simp), htake, write, LittleEndian.read_write]

theorem read?_write_of_le (w : LengthWidth) {n : UInt32} (fits : n ≤ w.maxLen) (rest : List UInt8) :
    w.read? (w.write n ++ rest) = some n := by
  have below : n.toNat < LittleEndian.capacity w.bytes := by
    rw [← w.toNat_maxLen]
    exact Nat.lt_succ_of_le fits
  rw [read?_write_append, Nat.mod_eq_of_lt below, UInt32.ofNat_toNat]

theorem toNat_of_read? {w : LengthWidth} {bs : List UInt8} {n : UInt32}
    (h : w.read? bs = some n) : n.toNat = LittleEndian.read (bs.take w.bytes) := by
  unfold read? at h
  split at h
  · cases h
    have hlt := LittleEndian.read_take_lt w.bytes bs
    have hmax := w.toNat_maxLen
    have hword := w.maxLen.toNat_lt
    rw [UInt32.toNat_ofNat', Nat.mod_eq_of_lt (by omega)]
  · cases h

/-- A length read in its width never exceeds what the width can carry. -/
theorem read_le_maxLen (w : LengthWidth) (bs : List UInt8) :
    UInt32.ofNat (LittleEndian.read (bs.take w.bytes)) ≤ w.maxLen := by
  have hlt := LittleEndian.read_take_lt w.bytes bs
  have hmax := w.toNat_maxLen
  have hword := w.maxLen.toNat_lt
  rw [UInt32.le_iff_toNat_le, UInt32.toNat_ofNat', Nat.mod_eq_of_lt (by omega)]
  omega

theorem le_maxLen_of_read? {w : LengthWidth} {bs : List UInt8} {n : UInt32}
    (h : w.read? bs = some n) : n ≤ w.maxLen := by
  unfold read? at h
  split at h
  · cases h
    exact w.read_le_maxLen bs
  · cases h

/-- Writing what was read gives back the bytes it was read from. -/
theorem write_of_read? {w : LengthWidth} {bs : List UInt8} {n : UInt32}
    (h : w.read? bs = some n) : w.write n = bs.take w.bytes := by
  have hn := toNat_of_read? h
  have hlen : (bs.take w.bytes).length = w.bytes := by
    rw [List.length_take]
    unfold read? at h
    split at h
    · omega
    · cases h
  have hwrite := LittleEndian.write_read (bs.take w.bytes)
  rw [hlen] at hwrite
  rw [write, hn, hwrite]

end LengthWidth

end PortWire
