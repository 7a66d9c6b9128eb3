import PortWire.Proofs.Reader.CompiledElement

/-!
# Lengths of dynamic arrays

A compiled dynamic array carries the width of its length prefix and nothing else of the declared
length. What bounds the prefix is therefore the width and the caller's limit, and a prefix above the
declared length is as good as any other.
-/

namespace PortWire.DataElement

variable {e : DataElement} {p : Program}

/-- The declared length lies strictly below what its prefix can hold. -/
theorem toNat_lt_capacity {n : UInt32} {w : LengthWidth} (h : LengthWidth.ofLen? n = some w) :
    n.toNat + 1 < LittleEndian.capacity (prefixSize n) := by
  have hlt := UInt32.lt_iff_toNat_lt.mp (LengthWidth.lt_maxLen_of_ofLen? h)
  have hmax := w.toNat_maxLen
  rw [LengthWidth.bytes_of_ofLen? h] at hmax
  omega

theorem carriedLength_lt_capacity (e : DataElement) (rest : List UInt8) :
    (e.carriedLength rest).toNat < LittleEndian.capacity (prefixSize e.arrayLen) := by
  have hread := LittleEndian.read_take_lt (prefixSize e.arrayLen) rest
  have hword : (e.carriedLength rest).toNat ≤
      LittleEndian.read (rest.take (prefixSize e.arrayLen)) := by
    rw [carriedLength, UInt32.toNat_ofNat']
    exact Nat.mod_le _ _
  omega

/-- What a dynamic array needs to have a meaning: the prefix, a length within the limit, and the
items. The declared length is not asked for. -/
theorem meaning_dynamic_eq_ok (arrayed : e.arrayLen ≠ 0) (dynamic : e.dynamic = true)
    {maxArrayLen : UInt32} {rest : List UInt8} {v : Value} {used : Nat} :
    e.meaning maxArrayLen rest = .ok (v, used) ↔
      let needed := (e.carriedLength rest).toNat * e.baseType.width
      prefixSize e.arrayLen + needed ≤ rest.length ∧ e.carriedLength rest ≤ maxArrayLen ∧
        v = e.baseType.gathered (e.carriedLength rest).toNat
          ((rest.drop (prefixSize e.arrayLen)).take needed) ∧
        used = prefixSize e.arrayLen + needed := by
  rw [meaning_dynamic arrayed dynamic]
  simp only [List.length_drop]
  generalize (e.carriedLength rest).toNat * e.baseType.width = needed
  constructor
  · intro h
    split at h
    · cases h
    · split at h
      · cases h
      · next within =>
        split at h
        · cases h
        · cases h
          exact ⟨by omega, UInt32.not_lt.mp within, rfl, rfl⟩
  · rintro ⟨enough, within, rfl, rfl⟩
    rw [if_neg (by omega), if_neg (UInt32.not_lt.mpr within), if_neg (by omega)]

theorem meaning_dynamic_limit (arrayed : e.arrayLen ≠ 0) (dynamic : e.dynamic = true)
    {maxArrayLen : UInt32} {rest : List UInt8} (enough : prefixSize e.arrayLen ≤ rest.length)
    (beyond : maxArrayLen < e.carriedLength rest) :
    e.meaning maxArrayLen rest =
      .error (.limit (.arrayLen (e.carriedLength rest) maxArrayLen)) := by
  rw [meaning_dynamic arrayed dynamic]
  simp only [if_neg (Nat.not_lt.mpr enough), if_pos beyond]

/-- A compiled dynamic array has as many items as its prefix says. The prefix is bounded by its
width, which leaves room above the declared length, and by the limit, and by nothing else. -/
theorem run_dynamic_length {type : ProgramType} (compiled : e.program type = .ok p)
    (arrayed : e.arrayLen ≠ 0) (dynamic : e.dynamic = true)
    {r : Reader} {data : List UInt8} (begun : r.source.buffer = some data) :
    let rest := data.drop r.source.pos
    let length := e.carriedLength rest
    (e.arrayLen.toNat + 1 < LittleEndian.capacity (prefixSize e.arrayLen) ∧
        length.toNat < LittleEndian.capacity (prefixSize e.arrayLen)) ∧
      (∀ v, (r.run p.code).1 = .ok v →
        length ≤ r.limits.maxArrayLen ∧
          (r.run p.code).2.source.pos =
            r.source.pos + prefixSize e.arrayLen + length.toNat * e.baseType.width ∧
          (e.baseType.itemwise → ∃ items, v = .array items ∧ items.length = length.toNat)) ∧
      (prefixSize e.arrayLen ≤ rest.length →
        (r.limits.maxArrayLen < length →
          (r.run p.code).1 = .error (.limit (.arrayLen length r.limits.maxArrayLen))) ∧
        (length ≤ r.limits.maxArrayLen →
          prefixSize e.arrayLen + length.toNat * e.baseType.width ≤ rest.length →
          ∃ v, (r.run p.code).1 = .ok v)) := by
  intro rest length
  have hrun := run_compiled compiled begun
  obtain ⟨_, _, hwidth, _⟩ := program_eq_ok compiled
  obtain ⟨width, hwidth⟩ := hwidth (by simp [isArray, arrayed])
  refine ⟨⟨toNat_lt_capacity hwidth, e.carriedLength_lt_capacity rest⟩, ?_, ?_⟩
  · intro v succeeded
    cases hmeaning : e.meaning r.limits.maxArrayLen rest with
    | error err =>
      rw [hmeaning] at hrun
      obtain ⟨hresult, _⟩ := Prod.mk.inj hrun
      rw [hresult] at succeeded
      cases succeeded
    | ok found =>
      obtain ⟨value, used⟩ := found
      rw [hmeaning] at hrun
      obtain ⟨hresult, hsource⟩ := Prod.mk.inj hrun
      obtain rfl : value = v := Except.ok.inj (hresult.symm.trans succeeded)
      obtain ⟨_, hlimit, hvalue, hused⟩ := (meaning_dynamic_eq_ok arrayed dynamic).mp hmeaning
      refine ⟨hlimit, by rw [hsource, hused, Nat.add_assoc], ?_⟩
      intro items
      refine ⟨_, by rw [hvalue, BaseType.gathered, if_pos items], ?_⟩
      rw [List.length_map, List.length_range]
  · intro enough
    constructor
    · intro beyond
      rw [meaning_dynamic_limit arrayed dynamic enough beyond] at hrun
      exact (Prod.mk.inj hrun).1
    · intro within full
      have hmeaning := (meaning_dynamic_eq_ok arrayed dynamic).mpr ⟨full, within, rfl, rfl⟩
      rw [hmeaning] at hrun
      exact ⟨_, (Prod.mk.inj hrun).1⟩

/-- A length above the declared one passes. -/
theorem declared_length_exceeded :
    (dynamicArray .u8 1).program .unpack = .ok ⟨[1, 0, 0, 0, 0, 0, 0, 0x80, 0x82]⟩ ∧
      (Reader.run [1, 0, 0, 0, 0, 0, 0, 0x80, 0x82] (Reader.start [2, 7, 8] {})).1 =
        .ok (.array [.scalar (.u32 7), .scalar (.u32 8)]) := by
  have compiled : (dynamicArray .u8 1).program .unpack =
      .ok ⟨[1, 0, 0, 0, 0, 0, 0, 0x80, 0x82]⟩ := rfl
  exact ⟨compiled, congrArg Prod.fst (run_compiled compiled (r := Reader.start [2, 7, 8] {}) rfl)⟩

/-- A prefix above the declared length, and below the limit. -/
theorem run_dynamic_length_exceeding :
    (dynamicArray .u16 1).program .pack = .ok ⟨[1, 0, 1, 0, 0, 0, 0, 0x89, 0x82]⟩ ∧
      ∃ v, (Reader.run [1, 0, 1, 0, 0, 0, 0, 0x89, 0x82]
        (Reader.start [2, 7, 0, 8, 0] { limits := { maxArrayLen := 2 } })).1 = .ok v := by
  have compiled : (dynamicArray .u16 1).program .pack =
      .ok ⟨[1, 0, 1, 0, 0, 0, 0, 0x89, 0x82]⟩ := rfl
  have hrun := run_dynamic_length compiled (by decide) rfl
    (r := Reader.start [2, 7, 0, 8, 0] { limits := { maxArrayLen := 2 } }) rfl
  exact ⟨compiled, (hrun.2.2 (by decide)).2 (by decide) (by decide)⟩

end PortWire.DataElement
