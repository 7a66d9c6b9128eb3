/-!
# Doubles

The doubles nearest to natural numbers: 53 significant bits, and a bound that every finite double
stays below. Exponents have no bound here, so a number too great for a double is rounded like any
other and told by the bound.
-/

namespace PortWire.Json.Double

def significantBits : Nat := 53

/-- From here on numbers round to infinity: half a unit above the greatest double. -/
def bound : Nat :=
  1 <<< 1024 - 1 <<< 970

/-- The distance between the doubles around a number. -/
def unit (n : Nat) : Nat :=
  1 <<< (n.log2 + 1 - significantBits)

/-- The nearest double; of two equally near ones the one with the even significand. -/
def round (n : Nat) : Nat :=
  let below := n / unit n
  let excess := 2 * (n % unit n)
  if unit n < excess ∨ (excess = unit n ∧ below % 2 = 1) then
    (below + 1) * unit n
  else
    below * unit n

end PortWire.Json.Double
