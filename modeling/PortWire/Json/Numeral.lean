import PortWire.Json.Double

/-!
# Numerals

Numbers of documents in the form in which they are written: a sign, the whole part without leading
zeros, the digits behind the point, and the exponent.
-/

namespace PortWire.Json

structure Numeral where
  negative : Bool := false
  whole : Nat
  fraction : Option (List Char) := none
  exponent : Option Int := none
  deriving DecidableEq, Repr

namespace Numeral

def digits (cs : List Char) : List Char :=
  cs.takeWhile Char.isDigit

def behindDigits (cs : List Char) : List Char :=
  cs.dropWhile Char.isDigit

def number (ds : List Char) : Nat :=
  Nat.ofDigitChars 10 ds 0

def isNumber (ds : List Char) : Bool :=
  !ds.isEmpty && ds.all Char.isDigit

def sign : List Char → Bool × List Char
  | '-' :: cs => (true, cs)
  | cs => (false, cs)

def whole? (cs : List Char) : Option Nat :=
  match digits cs with
  | [] => none
  | ['0'] => some 0
  | '0' :: _ => none
  | ds => some (number ds)

def fraction? : List Char → Option (Option (List Char) × List Char)
  | '.' :: cs =>
    if (digits cs).isEmpty then none else some (some (digits cs), behindDigits cs)
  | cs => some (none, cs)

def exponentValue? : List Char → Option Int
  | '-' :: ds => if isNumber ds then some (-(number ds : Int)) else none
  | '+' :: ds => if isNumber ds then some (number ds) else none
  | ds => if isNumber ds then some (number ds) else none

def exponent? : List Char → Option (Option Int)
  | [] => some none
  | c :: cs => if c = 'e' ∨ c = 'E' then (exponentValue? cs).map some else none

def ofChars? (cs : List Char) : Option Numeral := do
  let (negative, cs) := sign cs
  let whole ← whole? cs
  let (fraction, cs) ← fraction? (behindDigits cs)
  let exponent ← exponent? cs
  return { negative, whole, fraction, exponent }

/-- The integer, if it is written as one. Zero has no sign. -/
def int? (n : Numeral) : Option Int :=
  match n.fraction, n.exponent with
  | none, none =>
    if n.negative then
      if n.whole = 0 then none else some (-(n.whole : Int))
    else
      some n.whole
  | _, _ => none

/-- A number given as digits and the power of ten that they count. -/
structure Scaled where
  significand : Nat
  exponent : Int
  deriving DecidableEq, Repr

/-- Appends digits to a number up to the first that would take it beyond a word of 64 bits. The
digits from there on are left over. -/
def fill (n : Nat) : List Char → Nat × List Char
  | [] => (n, [])
  | d :: ds =>
    let m := 10 * n + number [d]
    if m < UInt64.size then fill m ds else (n, d :: ds)

/-- The leading digits, as many as fit a word. A digit before the point that is left over still
raises the power of ten; one behind the point is dropped. -/
def scaled (n : Numeral) : Scaled :=
  let fraction := n.fraction.getD []
  let (whole, wholeRest) := fill 0 (Nat.toDigits 10 n.whole)
  let (significand, fractionRest) := fill whole fraction
  ⟨significand,
    wholeRest.length - (fraction.length - fractionRest.length : Nat) + n.exponent.getD 0⟩

/-- The greatest power of ten that is a finite double. -/
def maxPower : Nat := 308

/-- The number stays finite when it is made a double: significand and power of ten are rounded to
doubles first, then their product is. -/
def isFinite (n : Numeral) : Bool :=
  let s := n.scaled
  if s.significand = 0 ∨ s.exponent < 0 then
    true
  else if maxPower < s.exponent then
    false
  else
    Double.round s.significand * Double.round (Nat.pow 10 s.exponent.toNat) < Double.bound

end Numeral

end PortWire.Json
