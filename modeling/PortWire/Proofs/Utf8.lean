import Mathlib.Data.List.Basic
import PortWire.Utf8

/-!
# Texts and their bytes

The bytes of a text are decoded to that text, and none of them is zero unless a character is. Each
character is followed through the machine by the length of its sequence. Nothing is assumed of the
text. Bytes of any kind never make more characters than there are bytes.
-/

namespace PortWire.Utf8

theorem toNat_ofNat {n : Nat} (small : n < 0x100) : (UInt8.ofNat n).toNat = n :=
  UInt8.toNat_ofNat_of_lt' small

/-! ## First bytes -/

theorem lead_ascii {b : Nat} (h : b < 0x80) : lead b = .char (Char.ofNat b) := by
  rw [lead, if_pos h]

theorem lead_two {n : Nat} (low : 2 ≤ n) (high : n < 0x20) :
    lead (n + 0xC0) = .opens ⟨n, 0x80, 0xBF, 0⟩ := by
  rw [lead, if_neg (by omega), if_neg (by omega), if_pos (by omega), Nat.add_sub_cancel]

theorem lead_three {n : Nat} (h : n < 0x10) :
    lead (n + 0xE0) =
      .opens ⟨n, if n = 0 then 0xA0 else 0x80, if n = 0xD then 0x9F else 0xBF, 1⟩ := by
  have first : n + 0xE0 = 0xE0 ↔ n = 0 := by omega
  have surrogate : n + 0xE0 = 0xED ↔ n = 0xD := by omega
  rw [lead, if_neg (by omega), if_neg (by omega), if_neg (by omega), if_pos (by omega),
    Nat.add_sub_cancel]
  simp only [first, surrogate]

theorem lead_four {n : Nat} (h : n < 5) :
    lead (n + 0xF0) =
      .opens ⟨n, if n = 0 then 0x90 else 0x80, if n = 4 then 0x8F else 0xBF, 2⟩ := by
  have first : n + 0xF0 = 0xF0 ↔ n = 0 := by omega
  have last : n + 0xF0 = 0xF4 ↔ n = 4 := by omega
  rw [lead, if_neg (by omega), if_neg (by omega), if_neg (by omega), if_neg (by omega),
    if_pos (by omega), Nat.add_sub_cancel]
  simp only [first, last]

/-! ## Sequences -/

/-- What the next byte makes of a sequence under way. -/
def Pending.next (p : Pending) (b : Nat) : Lead :=
  if p.low ≤ b ∧ b ≤ p.high then
    match p.more with
    | 0 => .char (Char.ofNat (64 * p.bits + (b - 0x80)))
    | more + 1 => .opens ⟨64 * p.bits + (b - 0x80), 0x80, 0xBF, more⟩
  else
    .invalid

/-- What further bytes make of a sequence. None may follow the last one. -/
def Lead.after : Lead → List UInt8 → Lead
  | l, [] => l
  | .opens p, b :: bs => (p.next b.toNat).after bs
  | _, _ :: _ => .invalid

/-- What the bytes are as a single sequence. -/
def sequence : List UInt8 → Lead
  | [] => .invalid
  | b :: bs => (lead b.toNat).after bs

theorem Lead.after_invalid (bs : List UInt8) : Lead.invalid.after bs = .invalid := by
  cases bs <;> rfl

theorem Pending.next_more {bits low high more n : Nat} (h : low ≤ n + 0x80 ∧ n + 0x80 ≤ high) :
    next ⟨bits, low, high, more + 1⟩ (n + 0x80) = .opens ⟨64 * bits + n, 0x80, 0xBF, more⟩ := by
  simp only [next, h, and_self, if_true, Nat.add_sub_cancel]

theorem Pending.next_last {bits low high n : Nat} (h : low ≤ n + 0x80 ∧ n + 0x80 ≤ high) :
    next ⟨bits, low, high, 0⟩ (n + 0x80) = .char (Char.ofNat (64 * bits + n)) := by
  simp only [next, h, and_self, if_true, Nat.add_sub_cancel]

theorem sequence_encodeChar (c : Char) : sequence (String.utf8EncodeChar c) = .char c := by
  have valid : c.toNat < 0xD800 ∨ 0xDFFF < c.toNat ∧ c.toNat < 0x110000 := c.valid
  have same : Char.ofNat c.toNat = c := Char.ofNat_toNat c
  have unfolded : c.val.toNat = c.toNat := rfl
  rw [String.utf8EncodeChar]
  simp only [unfolded]
  generalize c.toNat = v at valid same
  -- One case for each length. The narrower bounds of the second byte hold because the number has no
  -- shorter sequence and is no surrogate.
  split
  · next one =>
    rw [sequence, toNat_ofNat (by omega), lead_ascii (by omega), Lead.after, same]
  · next notOne =>
    split
    · next two =>
      have value : 64 * (v / 64 % 0x20) + v % 0x40 = v := by omega
      rw [sequence, toNat_ofNat (by omega), lead_two (by omega) (by omega), Lead.after,
        toNat_ofNat (by omega), Pending.next_last (by omega), Lead.after, value, same]
    · next notTwo =>
      split
      · next three =>
        have value : 64 * (64 * (v / 4096 % 0x10) + v / 64 % 0x40) + v % 0x40 = v := by omega
        rw [sequence, toNat_ofNat (by omega), lead_three (by omega), Lead.after,
          toNat_ofNat (by omega), Pending.next_more (by split <;> split <;> omega), Lead.after,
          toNat_ofNat (by omega), Pending.next_last (by omega), Lead.after, value, same]
      · next notThree =>
        have value : 64 * (64 * (64 * (v / 262144 % 0x08) + v / 4096 % 0x40) + v / 64 % 0x40) +
            v % 0x40 = v := by omega
        rw [sequence, toNat_ofNat (by omega), lead_four (by omega), Lead.after,
          toNat_ofNat (by omega), Pending.next_more (by split <;> split <;> omega), Lead.after,
          toNat_ofNat (by omega), Pending.next_more (by omega), Lead.after,
          toNat_ofNat (by omega), Pending.next_last (by omega), Lead.after, value, same]

/-! ## Steps of the machine -/

/-- Where the machine stands behind a sequence. -/
def State.behind (pieces : List (Option Char)) : Lead → State
  | .char c => ⟨some c :: pieces, none⟩
  | .opens p => ⟨pieces, some p⟩
  | .invalid => ⟨none :: pieces, none⟩

theorem start_eq (pieces : List (Option Char)) (b : UInt8) :
    State.start pieces b = State.behind pieces (lead b.toNat) := by
  rw [State.start]
  cases lead b.toNat <;> rfl

theorem step_inside {pieces : List (Option Char)} {p : Pending} {b : UInt8}
    (inside : p.next b.toNat ≠ .invalid) :
    State.step ⟨pieces, some p⟩ b = State.behind pieces (p.next b.toNat) := by
  simp only [State.step, Pending.next] at inside ⊢
  split
  · cases p.more <;> rfl
  · next outside =>
    rw [if_neg outside] at inside
    exact absurd rfl inside

/-- A byte out of bounds ends a piece and is looked at again. -/
theorem step_outside {pieces : List (Option Char)} {p : Pending} {b : UInt8}
    (outside : p.next b.toNat = .invalid) :
    State.step ⟨pieces, some p⟩ b = State.step ⟨none :: pieces, none⟩ b := by
  simp only [State.step, Pending.next] at outside ⊢
  split
  · next inside =>
    rw [if_pos inside] at outside
    cases more : p.more <;> rw [more] at outside <;> cases outside
  · rfl

theorem foldl_after {pieces : List (Option Char)} {l : Lead} {bs : List UInt8}
    (sound : l.after bs ≠ .invalid) :
    bs.foldl State.step (State.behind pieces l) = State.behind pieces (l.after bs) := by
  induction bs generalizing l with
  | nil => cases l <;> rfl
  | cons b rest ih =>
    cases l with
    | char c => exact absurd rfl sound
    | invalid => exact absurd rfl sound
    | opens p =>
      have inside : p.next b.toNat ≠ .invalid := by
        intro outside
        rw [Lead.after, outside, Lead.after_invalid] at sound
        exact sound rfl
      rw [List.foldl_cons, State.behind, step_inside inside]
      exact ih sound

theorem foldl_sequence {pieces : List (Option Char)} {bs : List UInt8}
    (sound : sequence bs ≠ .invalid) :
    bs.foldl State.step ⟨pieces, none⟩ = State.behind pieces (sequence bs) := by
  cases bs with
  | nil => exact absurd rfl sound
  | cons b rest =>
    rw [List.foldl_cons, State.step, start_eq]
    exact foldl_after sound

/-! ## Whole characters -/

theorem foldl_encodeChar (pieces : List (Option Char)) (c : Char) :
    (String.utf8EncodeChar c).foldl State.step ⟨pieces, none⟩ = ⟨some c :: pieces, none⟩ := by
  have found := sequence_encodeChar c
  have sound : sequence (String.utf8EncodeChar c) ≠ .invalid := by
    rw [found]
    exact Lead.noConfusion
  rw [foldl_sequence sound, found, State.behind]

theorem foldl_encode (pieces : List (Option Char)) (cs : List Char) :
    (cs.flatMap String.utf8EncodeChar).foldl State.step ⟨pieces, none⟩ =
      ⟨(cs.map some).reverse ++ pieces, none⟩ := by
  induction cs generalizing pieces with
  | nil => rfl
  | cons c rest ih =>
    rw [List.flatMap_cons, List.foldl_append, foldl_encodeChar, ih, List.map_cons,
      List.reverse_cons, List.append_assoc, List.singleton_append]

theorem pieces_encode (s : String) : pieces (encode s) = s.toList.map some := by
  rw [pieces, encode, State.initial, foldl_encode, State.finish, List.append_nil,
    List.reverse_reverse]

theorem decode?_encode (s : String) : decode? (encode s) = some s := by
  have all : ∀ cs : List Char, (cs.map some).mapM id = some cs := by
    intro cs
    induction cs with
    | nil => rfl
    | cons c rest ih => simp [List.mapM_cons, ih]
  rw [decode?, pieces_encode, all, Option.map_some, String.ofList_toList]

/-! ## Zero bytes -/

theorem zero_ne_ofNat {n : Nat} (positive : 0 < n) (small : n < 0x100) : 0 ≠ UInt8.ofNat n := by
  intro same
  have value := congrArg UInt8.toNat same
  rw [toNat_ofNat small] at value
  exact absurd value (Nat.ne_of_lt positive)

/-- Every byte of a sequence of several has its highest bit set. -/
theorem zero_notMem_encodeChar {c : Char} (h : 0 < c.toNat) : 0 ∉ String.utf8EncodeChar c := by
  have unfolded : c.val.toNat = c.toNat := rfl
  have valid : c.toNat < 0x110000 := by
    have := c.valid
    simp only [UInt32.isValidChar, Nat.isValidChar, unfolded] at this
    omega
  rw [String.utf8EncodeChar]
  simp only [unfolded]
  generalize c.toNat = v at h valid
  split
  · rw [List.mem_singleton]
    exact zero_ne_ofNat h (by omega)
  · split
    · simp only [List.mem_cons, List.not_mem_nil, or_false, not_or]
      exact ⟨zero_ne_ofNat (by omega) (by omega), zero_ne_ofNat (by omega) (by omega)⟩
    · split
      · simp only [List.mem_cons, List.not_mem_nil, or_false, not_or]
        exact ⟨zero_ne_ofNat (by omega) (by omega), zero_ne_ofNat (by omega) (by omega),
          zero_ne_ofNat (by omega) (by omega)⟩
      · simp only [List.mem_cons, List.not_mem_nil, or_false, not_or]
        exact ⟨zero_ne_ofNat (by omega) (by omega), zero_ne_ofNat (by omega) (by omega),
          zero_ne_ofNat (by omega) (by omega), zero_ne_ofNat (by omega) (by omega)⟩

theorem zero_mem_encode {s : String} : 0 ∈ encode s ↔ '\x00' ∈ s.toList := by
  constructor
  · intro h
    obtain ⟨c, hc, h⟩ := List.mem_flatMap.mp h
    have zero : c.toNat = 0 := by
      by_contra positive
      exact zero_notMem_encodeChar (Nat.pos_of_ne_zero positive) h
    have same : c = '\x00' := by rw [← Char.ofNat_toNat c, zero]
    exact same ▸ hc
  · intro h
    exact List.mem_flatMap.mpr ⟨_, h, by decide⟩

/-! ## How many pieces -/

/-- Pieces of a state, the sequence under way included. -/
def State.count (s : State) : Nat :=
  s.pieces.length + s.pending.toList.length

@[simp]
theorem count_none (pieces : List (Option Char)) : State.count ⟨pieces, none⟩ = pieces.length :=
  rfl

@[simp]
theorem count_some (pieces : List (Option Char)) (p : Pending) :
    State.count ⟨pieces, some p⟩ = pieces.length + 1 :=
  rfl

theorem count_start (pieces : List (Option Char)) (b : UInt8) :
    (State.start pieces b).count = pieces.length + 1 := by
  rw [State.start]
  cases lead b.toNat <;> simp

/-- A byte out of bounds starts a piece of its own, behind the one that it ends. -/
theorem count_step (s : State) (b : UInt8) : (s.step b).count ≤ s.count + 1 := by
  obtain ⟨pieces, pending⟩ := s
  cases pending with
  | none =>
    rw [State.step, count_start]
    exact Nat.le_refl _
  | some p =>
    simp only [State.step]
    by_cases inside : p.low ≤ b.toNat ∧ b.toNat ≤ p.high
    · rw [if_pos inside]
      cases p.more <;> simp
    · rw [if_neg inside, count_start]
      exact Nat.le_refl _

theorem count_foldl (s : State) (bs : List UInt8) :
    (bs.foldl State.step s).count ≤ s.count + bs.length := by
  induction bs generalizing s with
  | nil => exact Nat.le_refl _
  | cons b rest ih =>
    have first := count_step s b
    have others := ih (s.step b)
    rw [List.foldl_cons, List.length_cons]
    omega

theorem length_finish (s : State) : s.finish.length = s.count := by
  obtain ⟨pieces, pending⟩ := s
  cases pending <;> simp [State.finish]

/-- No text has more characters than bytes, whatever the bytes are. -/
theorem length_decodeLossy_le (bs : List UInt8) : (decodeLossy bs).length ≤ bs.length := by
  have counted := count_foldl State.initial bs
  rw [State.initial, count_none, List.length_nil, Nat.zero_add] at counted
  rw [decodeLossy, String.length_ofList, List.length_map, pieces, length_finish]
  exact counted

end PortWire.Utf8
