import Mathlib.Data.Nat.Find
import PortWire.Proofs.Utf8

/-!
# Pieces of arbitrary bytes

Any bytes are, in exactly one way, a row of encoded characters and invalid pieces. An invalid piece
stands where no encoded character does. It is as long as an encoded character could have begun so,
or a single byte where none could. These are the pieces that the machine finds.
-/

namespace PortWire.Utf8

/-! ## Sequences in parts -/

@[simp]
theorem Lead.after_nil (l : Lead) : l.after [] = l := by
  cases l <;> rfl

theorem Lead.after_append (l : Lead) (front back : List UInt8) :
    l.after (front ++ back) = (l.after front).after back := by
  induction front generalizing l with
  | nil => rw [List.nil_append, after_nil]
  | cons b rest ih =>
    cases l with
    | char c => exact (after_invalid back).symm
    | invalid => exact (after_invalid back).symm
    | opens p => exact ih (p.next b.toNat)

theorem sequence_append {front : List UInt8} (begun : front ≠ []) (back : List UInt8) :
    sequence (front ++ back) = (sequence front).after back := by
  cases front with
  | nil => exact absurd rfl begun
  | cons b rest => exact (lead b.toNat).after_append rest back

/-! ## Sequences that can be finished -/

/-- If a sequence is under way then some byte may come next. -/
def Lead.Open : Lead → Prop
  | .opens p => p.low ≤ p.high ∧ p.high < 0x100
  | _ => True

theorem open_opens {bits low high more : Nat} (h : low ≤ high ∧ high < 0x100) :
    (Lead.opens ⟨bits, low, high, more⟩).Open :=
  h

theorem open_lead (b : Nat) : (lead b).Open := by
  unfold lead
  split
  · trivial
  · split
    · trivial
    · split
      · exact open_opens (by decide)
      · split
        · exact open_opens (by split <;> split <;> omega)
        · split
          · exact open_opens (by split <;> split <;> omega)
          · trivial

theorem open_next (p : Pending) (b : Nat) : (p.next b).Open := by
  unfold Pending.next
  split
  · split
    · trivial
    · exact open_opens (by decide)
  · trivial

theorem open_after {l : Lead} (h : l.Open) (bs : List UInt8) : (l.after bs).Open := by
  induction bs generalizing l with
  | nil => cases l <;> exact h
  | cons b rest ih =>
    cases l with
    | char c => trivial
    | invalid => trivial
    | opens p => exact ih (open_next p b.toNat)

theorem open_sequence (bs : List UInt8) : (sequence bs).Open := by
  cases bs with
  | nil => trivial
  | cons b rest => exact open_after (open_lead b.toNat) rest

theorem exists_after {l : Lead} (h : l.Open) (sound : l ≠ .invalid) :
    ∃ bs c, l.after bs = .char c := by
  cases l with
  | char c => exact ⟨[], c, rfl⟩
  | invalid => exact absurd rfl sound
  | opens p =>
    obtain ⟨bits, low, high, more⟩ := p
    induction more generalizing bits low high with
    | zero =>
      refine ⟨[UInt8.ofNat low], Char.ofNat (64 * bits + (low - 0x80)), ?_⟩
      have byte : (UInt8.ofNat low).toNat = low := toNat_ofNat (Nat.lt_of_le_of_lt h.1 h.2)
      simp only [Lead.after, Pending.next, byte, h.1, Nat.le_refl, and_self, if_true]
    | succ more ih =>
      have byte : (UInt8.ofNat low).toNat = low := toNat_ofNat (Nat.lt_of_le_of_lt h.1 h.2)
      obtain ⟨rest, c, found⟩ := ih (64 * bits + (low - 0x80)) 0x80 0xBF
        (open_opens (by decide)) Lead.noConfusion
      refine ⟨UInt8.ofNat low :: rest, c, ?_⟩
      simp only [Lead.after, Pending.next, byte, h.1, Nat.le_refl, and_self, if_true, found]

/-! ## Encoded characters -/

theorem after_eq_char_last {bits low high : Nat} {bs : List UInt8} {c : Char}
    (h : (Lead.opens ⟨bits, low, high, 0⟩).after bs = .char c) :
    ∃ b, bs = [b] ∧ low ≤ b.toNat ∧ b.toNat ≤ high ∧
      c = Char.ofNat (64 * bits + (b.toNat - 0x80)) := by
  cases bs with
  | nil => cases h
  | cons b rest =>
    rw [Lead.after, Pending.next] at h
    split at h
    · next inside =>
      cases rest with
      | nil => exact ⟨b, rfl, inside.1, inside.2, (Lead.char.inj h).symm⟩
      | cons _ _ => cases h
    · rw [Lead.after_invalid] at h
      cases h

theorem after_eq_char_more {bits low high more : Nat} {bs : List UInt8} {c : Char}
    (h : (Lead.opens ⟨bits, low, high, more + 1⟩).after bs = .char c) :
    ∃ b rest, bs = b :: rest ∧ low ≤ b.toNat ∧ b.toNat ≤ high ∧
      (Lead.opens ⟨64 * bits + (b.toNat - 0x80), 0x80, 0xBF, more⟩).after rest = .char c := by
  cases bs with
  | nil => cases h
  | cons b rest =>
    rw [Lead.after, Pending.next] at h
    split at h
    · next inside => exact ⟨b, rest, rfl, inside.1, inside.2, h⟩
    · rw [Lead.after_invalid] at h
      cases h

theorem toNat_ofNat_of_valid {v : Nat} (valid : v < 0xD800 ∨ 0xDFFF < v ∧ v < 0x110000) :
    (Char.ofNat v).val.toNat = v := by
  have known : v.isValidChar := valid
  have same : Char.ofNat v = Char.ofNatAux v known := dif_pos known
  exact congrArg (fun c : Char => c.val.toNat) same

theorem ofNat_eq {n : Nat} {b : UInt8} (h : n = b.toNat) : UInt8.ofNat n = b := by
  rw [h, UInt8.ofNat_toNat]

theorem encodeChar_one {b : UInt8} (one : b.toNat < 0x80) :
    String.utf8EncodeChar (Char.ofNat b.toNat) = [b] := by
  have value := toNat_ofNat_of_valid (v := b.toNat) (by omega)
  rw [String.utf8EncodeChar]
  simp only [value]
  rw [if_pos (by omega), ofNat_eq rfl]

theorem encodeChar_two {b b₁ : UInt8} (first : 0xC2 ≤ b.toNat ∧ b.toNat < 0xE0)
    (second : 0x80 ≤ b₁.toNat ∧ b₁.toNat ≤ 0xBF) {v : Nat}
    (hv : 64 * (b.toNat - 0xC0) + (b₁.toNat - 0x80) = v) :
    String.utf8EncodeChar (Char.ofNat v) = [b, b₁] := by
  have value := toNat_ofNat_of_valid (v := v) (by omega)
  rw [String.utf8EncodeChar]
  simp only [value]
  rw [if_neg (by omega), if_pos (by omega), @ofNat_eq _ b (by omega), @ofNat_eq _ b₁ (by omega)]

/-- Without the narrower bounds of the second byte the number might have a shorter sequence or be a
surrogate. -/
theorem encodeChar_three {b b₁ b₂ : UInt8} (first : 0xE0 ≤ b.toNat ∧ b.toNat < 0xF0)
    (low : (if b.toNat = 0xE0 then 0xA0 else 0x80) ≤ b₁.toNat)
    (high : b₁.toNat ≤ if b.toNat = 0xED then 0x9F else 0xBF)
    (third : 0x80 ≤ b₂.toNat ∧ b₂.toNat ≤ 0xBF) {v : Nat}
    (hv : 64 * (64 * (b.toNat - 0xE0) + (b₁.toNat - 0x80)) + (b₂.toNat - 0x80) = v) :
    String.utf8EncodeChar (Char.ofNat v) = [b, b₁, b₂] := by
  have plain : 0x80 ≤ b₁.toNat ∧ b₁.toNat ≤ 0xBF := by
    split at low <;> split at high <;> omega
  have shortest : b.toNat = 0xE0 → 0xA0 ≤ b₁.toNat := by
    intro least
    rwa [if_pos least] at low
  have noSurrogate : b.toNat = 0xED → b₁.toNat ≤ 0x9F := by
    intro surrogate
    rwa [if_pos surrogate] at high
  clear low high
  have value := toNat_ofNat_of_valid (v := v) (by omega)
  rw [String.utf8EncodeChar]
  simp only [value]
  rw [if_neg (by omega), if_neg (by omega), if_pos (by omega), @ofNat_eq _ b (by omega),
    @ofNat_eq _ b₁ (by omega), @ofNat_eq _ b₂ (by omega)]

/-- Without the narrower bounds of the second byte the number might have a shorter sequence or be
above that of the last character. -/
theorem encodeChar_four {b b₁ b₂ b₃ : UInt8} (first : 0xF0 ≤ b.toNat ∧ b.toNat < 0xF5)
    (low : (if b.toNat = 0xF0 then 0x90 else 0x80) ≤ b₁.toNat)
    (high : b₁.toNat ≤ if b.toNat = 0xF4 then 0x8F else 0xBF)
    (third : 0x80 ≤ b₂.toNat ∧ b₂.toNat ≤ 0xBF) (fourth : 0x80 ≤ b₃.toNat ∧ b₃.toNat ≤ 0xBF)
    {v : Nat}
    (hv : 64 * (64 * (64 * (b.toNat - 0xF0) + (b₁.toNat - 0x80)) + (b₂.toNat - 0x80)) +
      (b₃.toNat - 0x80) = v) :
    String.utf8EncodeChar (Char.ofNat v) = [b, b₁, b₂, b₃] := by
  have plain : 0x80 ≤ b₁.toNat ∧ b₁.toNat ≤ 0xBF := by
    split at low <;> split at high <;> omega
  have shortest : b.toNat = 0xF0 → 0x90 ≤ b₁.toNat := by
    intro least
    rwa [if_pos least] at low
  have noHigher : b.toNat = 0xF4 → b₁.toNat ≤ 0x8F := by
    intro greatest
    rwa [if_pos greatest] at high
  clear low high
  have value := toNat_ofNat_of_valid (v := v) (by omega)
  rw [String.utf8EncodeChar]
  simp only [value]
  rw [if_neg (by omega), if_neg (by omega), if_neg (by omega), @ofNat_eq _ b (by omega),
    @ofNat_eq _ b₁ (by omega), @ofNat_eq _ b₂ (by omega), @ofNat_eq _ b₃ (by omega)]

/-- A sequence stands for a character only as the character is encoded. -/
theorem eq_encodeChar_of_sequence {bs : List UInt8} {c : Char} (h : sequence bs = .char c) :
    bs = String.utf8EncodeChar c := by
  cases bs with
  | nil => cases h
  | cons b rest =>
    rw [sequence, lead] at h
    split at h
    · next one =>
      cases rest with
      | cons _ _ => cases h
      | nil => rw [← Lead.char.inj h, encodeChar_one one]
    · split at h
      · rw [Lead.after_invalid] at h
        cases h
      · split at h
        · obtain ⟨b₁, rfl, low₁, high₁, same⟩ := after_eq_char_last h
          rw [same, encodeChar_two (by omega) ⟨low₁, high₁⟩ rfl]
        · split at h
          · obtain ⟨b₁, rest, rfl, low₁, high₁, h⟩ := after_eq_char_more h
            obtain ⟨b₂, rfl, low₂, high₂, same⟩ := after_eq_char_last h
            rw [same, encodeChar_three (by omega) low₁ high₁ ⟨low₂, high₂⟩ rfl]
          · split at h
            · obtain ⟨b₁, rest, rfl, low₁, high₁, h⟩ := after_eq_char_more h
              obtain ⟨b₂, rest, rfl, low₂, high₂, h⟩ := after_eq_char_more h
              obtain ⟨b₃, rfl, low₃, high₃, same⟩ := after_eq_char_last h
              rw [same, encodeChar_four (by omega) low₁ high₁ ⟨low₂, high₂⟩ ⟨low₃, high₃⟩ rfl]
            · rw [Lead.after_invalid] at h
              cases h

theorem encodeChar_ne_nil (c : Char) : String.utf8EncodeChar c ≠ [] := by
  intro empty
  have found := sequence_encodeChar c
  rw [empty] at found
  cases found

/-! ## Pieces -/

/-- Some encoded character begins so. -/
def Begins (bs : List UInt8) : Prop :=
  ∃ c, bs <+: String.utf8EncodeChar c

/-- No encoded character stands in front of `rest` behind `piece`, and `piece` is the longest
beginning of one that stands there, or a single byte where there is none. -/
structure Invalid (piece rest : List UInt8) : Prop where
  nonempty : piece ≠ []
  noChar : ∀ c, ¬ String.utf8EncodeChar c <+: piece ++ rest
  begun : piece.length = 1 ∨ Begins piece
  longest : ∀ longer, longer <+: piece ++ rest → Begins longer → longer.length ≤ piece.length

/-- The bytes are a row of encoded characters and, for each `none`, an invalid piece. -/
inductive Pieces : List UInt8 → List (Option Char) → Prop
  | nil : Pieces [] []
  | char {rest : List UInt8} {ps : List (Option Char)} (c : Char) :
    Pieces rest ps → Pieces (String.utf8EncodeChar c ++ rest) (some c :: ps)
  | invalid {piece rest : List UInt8} {ps : List (Option Char)} :
    Invalid piece rest → Pieces rest ps → Pieces (piece ++ rest) (none :: ps)

theorem begins_iff {bs : List UInt8} (nonempty : bs ≠ []) :
    Begins bs ↔ sequence bs ≠ .invalid := by
  constructor
  · rintro ⟨c, more, whole⟩ invalid
    have found := sequence_encodeChar c
    rw [← whole, sequence_append nonempty, invalid, Lead.after_invalid] at found
    cases found
  · intro sound
    obtain ⟨more, c, found⟩ := exists_after (open_sequence bs) sound
    rw [← sequence_append nonempty] at found
    exact ⟨c, more, eq_encodeChar_of_sequence found⟩

/-- The machine goes over an invalid piece, and the byte behind it starts the next. -/
theorem Invalid.finish_foldl {piece rest : List UInt8} (h : Invalid piece rest)
    (found : List (Option Char)) :
    ((piece ++ rest).foldl State.step ⟨found, none⟩).finish =
      (rest.foldl State.step ⟨none :: found, none⟩).finish := by
  by_cases begun : Begins piece
  · have sound := (begins_iff h.nonempty).mp begun
    cases hs : sequence piece with
    | invalid => exact absurd hs sound
    | char c =>
      refine absurd ?_ (h.noChar c)
      rw [← eq_encodeChar_of_sequence hs]
      exact List.prefix_append piece rest
    | opens p =>
      rw [List.foldl_append, foldl_sequence sound, hs, State.behind]
      cases rest with
      | nil => rfl
      | cons b rest =>
        have outside : p.next b.toNat = .invalid := by
          by_contra inside
          have longer : Begins (piece ++ [b]) := by
            rw [begins_iff (List.append_ne_nil_of_left_ne_nil h.nonempty _),
              sequence_append h.nonempty, hs, Lead.after, Lead.after_nil]
            exact inside
          have stands : piece ++ [b] <+: piece ++ b :: rest := ⟨rest, by simp⟩
          have short := h.longest (piece ++ [b]) stands longer
          rw [List.length_append, List.length_singleton] at short
          omega
        rw [List.foldl_cons, List.foldl_cons, step_outside outside]
  · obtain ⟨b, rfl⟩ := List.length_eq_one_iff.mp (h.begun.resolve_right begun)
    have invalid : sequence [b] = .invalid :=
      Classical.not_not.mp (mt (begins_iff h.nonempty).mpr begun)
    rw [sequence, Lead.after_nil] at invalid
    rw [List.singleton_append, List.foldl_cons, State.step, start_eq, invalid, State.behind]

theorem Pieces.finish_foldl {bs : List UInt8} {ps : List (Option Char)} (h : Pieces bs ps)
    (found : List (Option Char)) :
    (bs.foldl State.step ⟨found, none⟩).finish = found.reverse ++ ps := by
  induction h generalizing found with
  | nil => exact (List.append_nil _).symm
  | char c _ ih =>
    rw [List.foldl_append, foldl_encodeChar, ih, List.reverse_cons, List.append_assoc,
      List.singleton_append]
  | invalid h _ ih =>
    rw [h.finish_foldl, ih, List.reverse_cons, List.append_assoc, List.singleton_append]

/-- Where no encoded character stands there is an invalid piece. -/
theorem exists_invalid {bs : List UInt8} (nonempty : bs ≠ [])
    (noChar : ∀ c, ¬ String.utf8EncodeChar c <+: bs) :
    ∃ piece rest, bs = piece ++ rest ∧ Invalid piece rest := by
  classical
  let P (n : Nat) : Prop := n = 1 ∨ Begins (bs.take n)
  let n := Nat.findGreatest P bs.length
  have one : 1 ≤ bs.length := List.length_pos_iff.mpr nonempty
  have first : P 1 := Or.inl rfl
  have fits : n ≤ bs.length := Nat.findGreatest_le _
  have begun : P n := Nat.findGreatest_spec one first
  have positive : 1 ≤ n := Nat.le_findGreatest one first
  have length : (bs.take n).length = n := List.length_take_of_le fits
  refine ⟨bs.take n, bs.drop n, (List.take_append_drop n bs).symm, ?_, ?_, ?_, ?_⟩
  · exact List.ne_nil_of_length_pos (by omega)
  · rw [List.take_append_drop]
    exact noChar
  · rw [length]
    exact begun
  · intro longer stands begins
    rw [List.take_append_drop] at stands
    have same := List.prefix_iff_eq_take.mp stands
    rw [same] at begins
    rw [length]
    exact Nat.le_findGreatest stands.length_le (Or.inr begins)

theorem exists_pieces (bs : List UInt8) : ∃ ps, Pieces bs ps := by
  induction hn : bs.length using Nat.strong_induction_on generalizing bs with
  | _ n ih =>
    by_cases empty : bs = []
    · exact ⟨[], empty ▸ .nil⟩
    · by_cases stands : ∃ c, String.utf8EncodeChar c <+: bs
      · obtain ⟨c, rest, rfl⟩ := stands
        have taken := List.length_pos_iff.mpr (encodeChar_ne_nil c)
        rw [List.length_append] at hn
        obtain ⟨ps, others⟩ := ih rest.length (by omega) rest rfl
        exact ⟨_, .char c others⟩
      · obtain ⟨piece, rest, rfl, invalid⟩ := exists_invalid empty (not_exists.mp stands)
        have taken := List.length_pos_iff.mpr invalid.nonempty
        rw [List.length_append] at hn
        obtain ⟨ps, others⟩ := ih rest.length (by omega) rest rfl
        exact ⟨_, .invalid invalid others⟩

/-- The machine finds the pieces. There is no other way to take the bytes apart. -/
theorem pieces_iff {bs : List UInt8} {ps : List (Option Char)} : Pieces bs ps ↔ ps = pieces bs := by
  have only : ∀ qs, Pieces bs qs → qs = pieces bs := fun qs h => (h.finish_foldl []).symm
  constructor
  · exact only ps
  · rintro rfl
    obtain ⟨qs, h⟩ := exists_pieces bs
    exact only qs h ▸ h

example : pieces [0x61, 0xE2, 0x82, 0x62, 0xED, 0xA0] =
    [some 'a', none, some 'b', none, none] := by decide

/-! ## Zero bytes and ASCII -/

theorem Pieces.nul_notMem {bs : List UInt8} {ps : List (Option Char)} (h : Pieces bs ps)
    (nonzero : 0 ∉ bs) : some '\x00' ∉ ps := by
  induction h with
  | nil => exact List.not_mem_nil
  | char c _ ih =>
    rw [List.mem_append, not_or] at nonzero
    rw [List.mem_cons, not_or]
    refine ⟨?_, ih nonzero.2⟩
    intro same
    obtain rfl := Option.some.inj same
    exact nonzero.1 (by decide)
  | invalid _ _ ih =>
    rw [List.mem_append, not_or] at nonzero
    rw [List.mem_cons, not_or]
    exact ⟨Option.some_ne_none _, ih nonzero.2⟩

theorem nul_notMem_decodeLossy {bs : List UInt8} (nonzero : 0 ∉ bs) :
    '\x00' ∉ (decodeLossy bs).toList := by
  have absent := (pieces_iff.mpr rfl : Pieces bs (pieces bs)).nul_notMem nonzero
  rw [decodeLossy, String.toList_ofList, List.mem_map]
  rintro ⟨p, member, same⟩
  cases p with
  | none => exact absurd same (by decide)
  | some c =>
    obtain rfl : c = '\x00' := same
    exact absent member

theorem decodeLossy_encode (s : String) : decodeLossy (encode s) = s := by
  rw [decodeLossy, pieces_encode, List.map_map]
  exact (congrArg String.ofList (List.map_id s.toList)).trans String.ofList_toList

theorem ascii_encodeChar_iff {c : Char} :
    (∀ b ∈ String.utf8EncodeChar c, b < 0x80) ↔ c.toNat < 0x80 := by
  constructor
  · intro ascii
    obtain ⟨b, rest, spelled⟩ := List.exists_cons_of_ne_nil (encodeChar_ne_nil c)
    have small : b.toNat < 0x80 := ascii b (spelled ▸ List.mem_cons_self)
    have found := sequence_encodeChar c
    rw [spelled, sequence, lead_ascii small] at found
    cases rest with
    | cons _ _ => cases found
    | nil =>
      have value := toNat_ofNat_of_valid (v := b.toNat) (by omega)
      rw [Lead.char.inj found] at value
      exact Nat.lt_of_le_of_lt (Nat.le_of_eq value) small
  · intro small
    have byte : (UInt8.ofNat c.toNat).toNat = c.toNat := toNat_ofNat (by omega)
    have spelled := encodeChar_one (b := UInt8.ofNat c.toNat) (by omega)
    rw [byte, Char.ofNat_toNat] at spelled
    rw [spelled]
    intro b member
    rw [List.mem_singleton.mp member, UInt8.lt_iff_toNat_lt, byte]
    exact small

theorem ascii_encode_iff {s : String} :
    (∀ b ∈ encode s, b < 0x80) ↔ ∀ c ∈ s.toList, c.toNat < 0x80 := by
  constructor
  · intro ascii c member
    refine ascii_encodeChar_iff.mp fun b inside => ?_
    exact ascii b (List.mem_flatMap.mpr ⟨c, member, inside⟩)
  · intro small b member
    obtain ⟨c, among, inside⟩ := List.mem_flatMap.mp member
    exact ascii_encodeChar_iff.mpr (small c among) b inside

end PortWire.Utf8
