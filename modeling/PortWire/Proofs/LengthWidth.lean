import Mathlib.Algebra.Group.Nat.Defs
import PortWire.LengthWidth

/-!
# Length fields

A length field has exactly the bytes of its width, lowest byte first, so a length loses there what
lies beyond the width. The width chosen for a length is the narrowest one whose greatest value stays
above it, and nothing is lost in that width.
-/

namespace PortWire

namespace LittleEndian

/-- The bytes of a word are the digits of its number in base 256. -/
theorem write_eq_map (w n : Nat) :
    write w n = (List.range w).map fun i => UInt8.ofNat (n / 256 ^ i) := by
  induction w generalizing n with
  | zero => rfl
  | succ w ih =>
    have higher : ∀ i, n / 256 / 256 ^ i = n / 256 ^ (i + 1) := by
      intro i
      rw [Nat.div_div_eq_div_mul, Nat.pow_succ']
    rw [write, ih, List.range_succ_eq_map, List.map_cons, List.map_map, Nat.pow_zero, Nat.div_one]
    simp only [higher, Function.comp_def, Nat.succ_eq_add_one]

end LittleEndian

namespace LengthWidth

variable {n : UInt32} {w : LengthWidth}

theorem mod_capacity_eq_self_iff :
    n.toNat % LittleEndian.capacity w.bytes = n.toNat ↔ n ≤ w.maxLen := by
  have hmax := w.toNat_maxLen
  rw [Nat.mod_eq_iff_lt (by omega), UInt32.le_iff_toNat_le]
  omega

/-- Neither what was written before a field nor what follows it plays a part in reading it. -/
theorem exists_read?_behind (w : LengthWidth) (n : UInt32) (out rest : List UInt8) :
    ∃ m, w.read? ((out ++ w.write n ++ rest).drop out.length) = some m ∧
      m.toNat = n.toNat % LittleEndian.capacity w.bytes := by
  have small : n.toNat % LittleEndian.capacity w.bytes < UInt32.size :=
    Nat.lt_of_le_of_lt (Nat.mod_le _ _) n.toNat_lt
  refine ⟨UInt32.ofNat (n.toNat % LittleEndian.capacity w.bytes), ?_, ?_⟩
  · rw [List.append_assoc, List.drop_left, read?_write_append]
  · rw [UInt32.toNat_ofNat', Nat.mod_eq_of_lt small]

/-- A length is read exactly where its field stands and the width can carry it. -/
theorem read?_eq_some_iff {bs : List UInt8} :
    w.read? bs = some n ↔ n ≤ w.maxLen ∧ w.write n = bs.take w.bytes := by
  constructor
  · intro found
    exact ⟨le_maxLen_of_read? found, write_of_read? found⟩
  · rintro ⟨fits, stands⟩
    have found := w.read?_write_of_le fits (bs.drop w.bytes)
    rwa [stands, List.take_append_drop] at found

/-- The widths are tried from the narrowest on. -/
theorem all_ascending : (Named.all : List LengthWidth).Pairwise fun v w => v.bytes < w.bytes := by
  decide

theorem eq_of_bytes_eq {v w : LengthWidth} (same : v.bytes = w.bytes) : v = w := by
  cases v <;> cases w <;> simp_all [bytes]

theorem lt_maxLen_of_ofLen? (h : ofLen? n = some w) : n < w.maxLen := by
  simpa using List.find?_some h

theorem bytes_le_of_ofLen? (h : ofLen? n = some w) {v : LengthWidth} (roomy : n < v.maxLen) :
    w.bytes ≤ v.bytes := by
  obtain ⟨-, narrower, wider, listed, refused⟩ := List.find?_eq_some_iff_append.mp h
  have ascending := all_ascending
  have member := Named.mem_all v
  rw [listed] at ascending member
  -- the search stops at the first width with room, so any other with room stands behind it
  rcases List.mem_append.mp member with before | onward
  · have full := refused v before
    simp [roomy] at full
  · rcases List.mem_cons.mp onward with rfl | behind
    · exact Nat.le_refl _
    · have onwards := (List.pairwise_append.mp ascending).2.1
      exact Nat.le_of_lt (List.rel_of_pairwise_cons onwards behind)

theorem ofLen?_eq_some_iff :
    ofLen? n = some w ↔ n < w.maxLen ∧ ∀ v : LengthWidth, n < v.maxLen → w.bytes ≤ v.bytes := by
  constructor
  · intro chosen
    exact ⟨lt_maxLen_of_ofLen? chosen, fun v => bytes_le_of_ofLen? chosen⟩
  · rintro ⟨roomy, least⟩
    cases chosen : ofLen? n with
    | none =>
      have full := List.find?_eq_none.mp chosen w (Named.mem_all w)
      simp [roomy] at full
    | some v =>
      have wide := least v (lt_maxLen_of_ofLen? chosen)
      have narrow := bytes_le_of_ofLen? chosen roomy
      rw [eq_of_bytes_eq (Nat.le_antisymm narrow wide)]

theorem ofLen?_eq_none_iff : ofLen? n = none ↔ n = 0xFFFF_FFFF := by
  have hmax := n.toNat_lt
  rw [ofLen?, List.find?_eq_none, ← UInt32.toNat_inj]
  simp only [Named.all, List.mem_cons, List.not_mem_nil, or_false, forall_eq_or_imp, forall_eq,
    decide_eq_true_eq, maxLen, UInt32.lt_iff_toNat_lt]
  constructor
  · rintro ⟨-, -, hlarge⟩
    simp only [UInt32.reduceToNat] at hlarge ⊢
    omega
  · intro h
    simp only [h, UInt32.reduceToNat]
    omega

example : [254, 255, 65534, 65535, 4294967294, 4294967295].map ofLen? =
    [some .u8, some .u16, some .u16, some .u32, some .u32, none] := by
  decide

/-- A length field adds exactly the bytes of its width to whatever was written before, lowest first.
What is read there, whatever follows, is the length modulo the numbers that so many bytes hold: the
length itself exactly if the width can carry it. A length is read exactly from enough bytes, and
written again it gives those bytes. Only the greatest length has no width, and any other has the
narrowest one whose greatest value lies strictly above it. -/
theorem fields_and_classes_exact :
    (∀ (w : LengthWidth) (n : UInt32) (out rest : List UInt8),
        (out ++ w.write n).length = out.length + w.bytes ∧
          w.write n = (List.range w.bytes).map (fun i => UInt8.ofNat (n.toNat / 256 ^ i)) ∧
          ∃ m, w.read? ((out ++ w.write n ++ rest).drop out.length) = some m ∧
            m.toNat = n.toNat % 256 ^ w.bytes ∧ (m = n ↔ n ≤ w.maxLen)) ∧
      (∀ (w : LengthWidth) (bs : List UInt8),
        ((∃ m, w.read? bs = some m) ↔ w.bytes ≤ bs.length) ∧
          ∀ m, w.read? bs = some m ↔ m ≤ w.maxLen ∧ w.write m = bs.take w.bytes) ∧
      ∀ n : UInt32,
        (ofLen? n = none ↔ n = 0xFFFF_FFFF) ∧
          ∀ w, ofLen? n = some w ↔
            n < w.maxLen ∧ ∀ v : LengthWidth, n < v.maxLen → w.bytes ≤ v.bytes := by
  refine ⟨?_, ?_, fun n => ⟨ofLen?_eq_none_iff, fun w => ofLen?_eq_some_iff⟩⟩
  · intro w n out rest
    obtain ⟨m, found, value⟩ := exists_read?_behind w n out rest
    refine ⟨?_, LittleEndian.write_eq_map _ _, m, found, value, ?_⟩
    · rw [List.length_append, length_write]
    · rw [← UInt32.toNat_inj, value, mod_capacity_eq_self_iff]
  · intro w bs
    refine ⟨?_, fun m => read?_eq_some_iff⟩
    rw [← Option.isSome_iff_exists, Option.isSome_iff_ne_none, ne_eq, read?_eq_none_iff, Nat.not_lt]

/-- A length of 74565 behind one byte loses its third digit in two bytes. The greatest length of two
bytes takes four, and the one below it takes two, where four would hold it as well. -/
theorem length_cut_to_two_bytes :
    u16.write 0x12345 = [0x45, 0x23] ∧
      u16.read? (([0xAA] ++ u16.write 0x12345 ++ [7]).drop 1) = some 0x2345 ∧
      ¬ (0x12345 : UInt32) ≤ u16.maxLen ∧
      u16.write 0x2345 = [0x45, 0x23, 7].take 2 ∧
      ofLen? 0xFFFF = some .u32 ∧
      ofLen? 0xFFFE = some .u16 ∧ (0xFFFE : UInt32) < u32.maxLen ∧ u16.bytes ≤ u32.bytes := by
  obtain ⟨fields, readings, classes⟩ := fields_and_classes_exact
  obtain ⟨_, digits, m, found, _, kept⟩ := fields u16 0x12345 [0xAA] [7]
  have cut : u16.read? (([0xAA] ++ u16.write 0x12345 ++ [7]).drop 1) = some 0x2345 := by decide
  have lost : m ≠ 0x12345 := by
    intro same
    rw [same] at found
    cases found.symm.trans cut
  have again := ((readings u16 [0x45, 0x23, 7]).2 0x2345).mp (by decide)
  have greatest : ofLen? 0xFFFF = some .u32 := by decide
  have below : ofLen? 0xFFFE = some .u16 := by decide
  have roomy : (0xFFFE : UInt32) < u32.maxLen := by decide
  have narrowest := ((classes 0xFFFE).2 u16).mp below
  exact ⟨digits, cut, fun fits => lost (kept.mpr fits), again.2, greatest, below, roomy,
    narrowest.2 u32 roomy⟩

end LengthWidth

end PortWire
