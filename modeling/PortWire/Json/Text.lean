/-!
# Strings of documents

A string as it is written: characters, and 16-bit units given by their number. Units pair up to
characters above the 16-bit range; a string in which one stands alone can be skipped over but has no
text.
-/

namespace PortWire.Json

inductive Piece
  | char (c : Char)
  | unit (n : Nat)
  deriving DecidableEq, Repr

abbrev Text := List Piece

namespace Text

def isHighUnit (n : Nat) : Bool :=
  0xD800 ≤ n && n < 0xDC00

def isLowUnit (n : Nat) : Bool :=
  0xDC00 ≤ n && n < 0xE000

def chars? : Text → Option (List Char)
  | [] => some []
  | .char c :: rest => (chars? rest).map (c :: ·)
  | .unit n :: rest =>
    if isHighUnit n then
      match rest with
      | .unit m :: rest =>
        if isLowUnit m then
          let c := Char.ofNat (0x10000 + (n - 0xD800) * 0x400 + (m - 0xDC00))
          (chars? rest).map (c :: ·)
        else
          none
      | _ => none
    else if isLowUnit n then
      none
    else
      (chars? rest).map (Char.ofNat n :: ·)

def string? (t : Text) : Option String :=
  t.chars?.map String.ofList

end Text

end PortWire.Json
