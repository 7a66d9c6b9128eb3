/-!
# UTF-8

Bytes are decoded one at a time. The state is either between characters or inside a sequence, where
it holds the bits so far and the bounds of the next byte. A byte out of bounds ends the sequence as
one invalid piece and is looked at again as the start of the next; so each invalid piece is as long
as some well-formed sequence could still have begun with it.
-/

namespace PortWire.Utf8

structure Pending where
  bits : Nat
  /-- Least value of the next byte. -/
  low : Nat
  /-- Greatest value of the next byte. -/
  high : Nat
  /-- Bytes of the sequence behind the next one. -/
  more : Nat
  deriving DecidableEq, Repr

inductive Lead
  | char (c : Char)
  | opens (p : Pending)
  | invalid
  deriving DecidableEq, Repr

/-- What a byte between characters stands for. The bounds of the second byte leave out overlong
forms, surrogates, and numbers above the last character. -/
def lead (b : Nat) : Lead :=
  if b < 0x80 then
    .char (Char.ofNat b)
  else if b < 0xC2 then
    .invalid
  else if b < 0xE0 then
    .opens ⟨b - 0xC0, 0x80, 0xBF, 0⟩
  else if b < 0xF0 then
    .opens ⟨b - 0xE0, if b = 0xE0 then 0xA0 else 0x80, if b = 0xED then 0x9F else 0xBF, 1⟩
  else if b < 0xF5 then
    .opens ⟨b - 0xF0, if b = 0xF0 then 0x90 else 0x80, if b = 0xF4 then 0x8F else 0xBF, 2⟩
  else
    .invalid

/-- The pieces found so far, last one first, and the sequence under way. An invalid piece is
`none`. -/
structure State where
  pieces : List (Option Char)
  pending : Option Pending
  deriving DecidableEq, Repr

namespace State

def initial : State := ⟨[], none⟩

def start (pieces : List (Option Char)) (b : UInt8) : State :=
  match lead b.toNat with
  | .char c => ⟨some c :: pieces, none⟩
  | .opens p => ⟨pieces, some p⟩
  | .invalid => ⟨none :: pieces, none⟩

def step (s : State) (b : UInt8) : State :=
  match s.pending with
  | none => start s.pieces b
  | some p =>
    if p.low ≤ b.toNat ∧ b.toNat ≤ p.high then
      let bits := 64 * p.bits + (b.toNat - 0x80)
      match p.more with
      | 0 => ⟨some (Char.ofNat bits) :: s.pieces, none⟩
      | more + 1 => ⟨s.pieces, some ⟨bits, 0x80, 0xBF, more⟩⟩
    else
      start (none :: s.pieces) b

/-- A sequence cut short by the end is one invalid piece. -/
def finish (s : State) : List (Option Char) :=
  match s.pending with
  | none => s.pieces.reverse
  | some _ => (none :: s.pieces).reverse

end State

def pieces (bs : List UInt8) : List (Option Char) :=
  (bs.foldl State.step State.initial).finish

/-- The text of well-formed bytes. -/
def decode? (bs : List UInt8) : Option String :=
  ((pieces bs).mapM id).map String.ofList

/-- The bytes of a text. -/
def encode (s : String) : List UInt8 :=
  s.toList.flatMap String.utf8EncodeChar

/-- The text of any bytes, with U+FFFD for each invalid piece. -/
def decodeLossy (bs : List UInt8) : String :=
  String.ofList ((pieces bs).map fun c => c.getD '\uFFFD')

end PortWire.Utf8
