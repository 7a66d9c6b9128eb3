/-!
# Little-endian words

A word of `w` bytes holds a number below the `w`-th power of 256, lowest byte first. Reading a
written word gives back the number less the bits that do not fit, and writing what was read gives
back the bytes.
-/

namespace PortWire.LittleEndian

def write : Nat → Nat → List UInt8
  | 0, _ => []
  | w + 1, n => UInt8.ofNat n :: write w (n / 256)

def read : List UInt8 → Nat
  | [] => 0
  | b :: bs => b.toNat + 256 * read bs

/-- How many numbers a word of `w` bytes holds. -/
def capacity (w : Nat) : Nat :=
  Nat.pow 256 w

/-- The number that a `w`-byte word stands for in two's complement. -/
def signed (w n : Nat) : Int :=
  Int.bmod n (capacity w)

theorem capacity_succ (w : Nat) : capacity (w + 1) = 256 * capacity w :=
  Nat.mul_comm _ _

theorem capacity_mono {v w : Nat} (h : v ≤ w) : capacity v ≤ capacity w :=
  Nat.pow_le_pow_right (by decide) h

@[simp]
theorem length_write (w n : Nat) : (write w n).length = w := by
  induction w generalizing n with
  | zero => rfl
  | succ w ih => simp [write, ih]

theorem read_lt (bs : List UInt8) : read bs < capacity bs.length := by
  induction bs with
  | nil => decide
  | cons b bs ih =>
    have hb := b.toNat_lt
    rw [read, List.length_cons, capacity_succ]
    omega

theorem read_take_lt (w : Nat) (bs : List UInt8) : read (bs.take w) < capacity w := by
  have hread := read_lt (bs.take w)
  have hcapacity : capacity (bs.take w).length ≤ capacity w :=
    capacity_mono (by rw [List.length_take]; omega)
  omega

theorem read_write (w n : Nat) : read (write w n) = n % capacity w := by
  induction w generalizing n with
  | zero => exact (Nat.mod_one n).symm
  | succ w ih =>
    rw [write, read, ih, capacity_succ, Nat.mod_mul]
    simp

theorem write_read (bs : List UInt8) : write bs.length (read bs) = bs := by
  induction bs with
  | nil => rfl
  | cons b bs ih =>
    have hb := b.toNat_lt
    have hlow : UInt8.ofNat (b.toNat + 256 * read bs) = b := by
      apply UInt8.toNat_inj.mp
      rw [UInt8.toNat_ofNat']
      omega
    have hhigh : (b.toNat + 256 * read bs) / 256 = read bs := by omega
    rw [List.length_cons, read, write, hlow, hhigh, ih]

end PortWire.LittleEndian
