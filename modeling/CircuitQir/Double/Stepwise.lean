import CircuitQir.Double.Decimal
import CircuitQir.Double.Product
/-!
# Decimals read step by step

`Decimal.magnitude` rounds once, so that it gives the nearest magnitude. A reader that computes
with doubles throughout rounds at each step: it takes the digits as a double and multiplies or
divides it by a power of ten, which is itself only the nearest double to that power. What it ends
up with is near the decimal, but need not be the nearest magnitude.

The powers up to `10 ^ 308` are at hand. A number with more places behind the point is divided by
the last of them until the rest is at hand or nothing is left of it.
-/

namespace CircuitQir

namespace Magnitude

/-- The magnitude nearest to a power of ten. -/
def powerOfTen (n : Nat) : Nat := nearest (10 ^ n) 1

/-- A finite magnitude times a power of ten, unless that is out of range. -/
def scale? (k : Nat) (e : Int) : Option Nat :=
  if e.natAbs ≤ 308 then
    if 0 ≤ e then
      let product := times k (powerOfTen e.natAbs)
      if product = infinity then none else some product
    else some (quotient k (powerOfTen e.natAbs))
  else if k = 0 then some k
  else if 0 ≤ e then none
  else scale? (quotient k (powerOfTen 308)) (e + 308)
termination_by e.natAbs
decreasing_by omega

end Magnitude

/-- The magnitude that a decimal comes to step by step, unless it is out of range. -/
def Decimal.stepwise? (d : Decimal) : Option Nat :=
  Magnitude.scale? (Magnitude.nearest d.digits 1) d.exponent

end CircuitQir
