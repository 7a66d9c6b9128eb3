import PortWire.Proofs.Json.Parsing

/-!
# Trees that can be held

A tree that stands for a document can be kept until it is known what is to be read from it. Its
strings have a text, and its numbers fit a word of 64 bits, which is far below the bound of the
doubles; and it nests as deep as the document.
-/

namespace PortWire.Json

open Document

/-! ## Numbers -/

theorem Double.round_le (n : Nat) : round n ≤ n + unit n := by
  have below : n / unit n * unit n ≤ n := Nat.div_mul_le_self n (unit n)
  rw [round]
  split
  · rw [Nat.succ_mul]
    exact Nat.add_le_add_right below (unit n)
  · exact Nat.le_add_right_of_le below

theorem Double.unit_le {n : Nat} (positive : n ≠ 0) : unit n ≤ n := by
  calc unit n = Nat.pow 2 (n.log2 + 1 - significantBits) := by
        rw [unit, Nat.shiftLeft_eq, Nat.one_mul]
        rfl
    _ ≤ Nat.pow 2 n.log2 := Nat.pow_le_pow_right (by decide) (by rw [significantBits]; omega)
    _ ≤ n := Nat.log2_self_le positive

namespace Numeral

theorem le_ofDigitChars (ds : List Char) (n : Nat) : n ≤ Nat.ofDigitChars 10 ds n := by
  induction ds generalizing n with
  | nil => exact Nat.le_refl n
  | cons d ds ih =>
    rw [Nat.ofDigitChars_cons]
    exact Nat.le_trans (by omega) (ih _)

/-- No digit is left over of a number that fits a word. -/
theorem fill_eq {ds : List Char} {n : Nat} (small : Nat.ofDigitChars 10 ds n < UInt64.size) :
    fill n ds = (Nat.ofDigitChars 10 ds n, []) := by
  induction ds generalizing n with
  | nil => rfl
  | cons d ds ih =>
    rw [Nat.ofDigitChars_cons] at small ⊢
    have digit : number [d] = d.toNat - '0'.toNat := by
      rw [number, Nat.ofDigitChars_cons, Nat.mul_zero, Nat.zero_add, Nat.ofDigitChars_nil]
    have within := Nat.lt_of_le_of_lt (le_ofDigitChars ds _) small
    rw [fill, digit, if_pos within, ih small]

theorem scaled_of_word {n : Numeral} (fraction : n.fraction = none) (exponent : n.exponent = none)
    (small : n.whole < UInt64.size) : n.scaled = ⟨n.whole, 0⟩ := by
  have digits : Nat.ofDigitChars 10 (Nat.toDigits 10 n.whole) 0 = n.whole :=
    Nat.ofDigitChars_ten_toDigits
  have within : Nat.ofDigitChars 10 (Nat.toDigits 10 n.whole) 0 < UInt64.size := by
    rw [digits]
    exact small
  have whole := fill_eq within
  rw [digits] at whole
  simp only [scaled, fraction, exponent, whole]
  rfl

/-- A word stays below twice itself when it is rounded, and so below the bound. -/
theorem isFinite_of_word {n : Numeral} (fraction : n.fraction = none)
    (exponent : n.exponent = none) (small : n.whole < UInt64.size) : n.isFinite = true := by
  rw [isFinite, scaled_of_word fraction exponent small]
  by_cases zero : n.whole = 0
  · rw [if_pos (Or.inl zero)]
  · have one : Double.round (Nat.pow 10 (0 : Int).toNat) = 1 := rfl
    have rounded : Double.round n.whole ≤ n.whole + n.whole :=
      Nat.le_trans (Double.round_le _) (Nat.add_le_add_left (Double.unit_le zero) _)
    have bound : UInt64.size + UInt64.size < Double.bound := by decide
    have nonnegative : ¬ (0 : Int) < 0 := by decide
    have power : ¬ (maxPower : Int) < 0 := by decide
    simp only [zero, nonnegative, power, or_self, if_false, one, Nat.mul_one, decide_eq_true_eq]
    omega

/-- A numeral of an integer has neither a fraction nor an exponent, and its sign tells the integer
from the whole part. -/
theorem integral_of_int? {n : Numeral} {i : Int} (h : n.int? = some i) :
    n.fraction = none ∧ n.exponent = none ∧ n.whole = i.natAbs := by
  rw [int?] at h
  split at h
  · next fraction exponent =>
    refine ⟨fraction, exponent, ?_⟩
    split at h
    · split at h
      · cases h
      · cases h
        omega
    · cases h
      omega
  · cases h

theorem isFinite_of_int? {m : Numeral} {n : Number} (h : m.int? = some n.value) :
    m.isFinite = true := by
  obtain ⟨fraction, exponent, whole⟩ := integral_of_int? h
  refine isFinite_of_word fraction exponent ?_
  have low : (Int64.minValue.toInt : Int) = -(0x8000_0000_0000_0000 : Nat) := by decide
  have high : UInt64.size = 0x1_0000_0000_0000_0000 := rfl
  have lower := n.low
  have upper := n.high
  omega

end Numeral

/-! ## Trees -/

mutual

theorem Stands.isHoldable : ∀ {j : Json} {t : Document}, j.Stands t → j.isHoldable = true
  | _, _, .null => rfl
  | _, _, .bool _ => rfl
  | _, _, .number value => Numeral.isFinite_of_int? value
  | _, _, .text value => by rw [Json.isHoldable, value, Option.isSome_some]
  | _, _, .list items => items.areHoldable
  | _, _, .object members => members.areHoldable

theorem StandItems.areHoldable : ∀ {js : List Json} {ts : List Document}, StandItems js ts →
    Json.areHoldable js = true
  | _, _, .nil => rfl
  | _, _, .cons first others => by
    rw [Json.areHoldable, first.isHoldable, others.areHoldable, Bool.and_self]

theorem StandMembers.areHoldable : ∀ {js : List (Text × Json)} {ts : List (String × Document)},
    StandMembers js ts → areMembersHoldable js = true
  | _, _, .nil => rfl
  | _, _, .cons name first others => by
    rw [areMembersHoldable, name, first.isHoldable, others.areHoldable, Option.isSome_some,
      Bool.and_self, Bool.and_self]

end

mutual

theorem Stands.depth_eq : ∀ {j : Json} {t : Document}, j.Stands t → j.depth = t.depth
  | _, _, .null => rfl
  | _, _, .bool _ => rfl
  | _, _, .number _ => rfl
  | _, _, .text _ => rfl
  | _, _, .list items => congrArg Nat.succ items.depth_eq
  | _, _, .object members => congrArg Nat.succ members.depth_eq

theorem StandItems.depth_eq : ∀ {js : List Json} {ts : List Document}, StandItems js ts →
    Json.itemsDepth js = Document.itemsDepth ts
  | _, _, .nil => rfl
  | _, _, .cons first others => by
    rw [Json.itemsDepth, Document.itemsDepth, first.depth_eq, others.depth_eq]

theorem StandMembers.depth_eq : ∀ {js : List (Text × Json)} {ts : List (String × Document)},
    StandMembers js ts → Json.membersDepth js = Document.membersDepth ts
  | _, _, .nil => rfl
  | _, _, .cons _ first others => by
    rw [Json.membersDepth, Document.membersDepth, first.depth_eq, others.depth_eq]

end

end PortWire.Json
