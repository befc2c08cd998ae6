import CircuitQir.Double.Rounding
/-!
# Products and quotients of doubles

`Magnitude.times` and `Magnitude.quotient` multiply and divide the exact values of finite magnitudes
and round once. `Double.mul` is the product of any two doubles: a NaN factor makes the product
that NaN, made quiet; an infinite factor makes it infinite, except that zero times infinity is not
a number.
-/

namespace CircuitQir

namespace Magnitude

/-- The correctly rounded product of two finite magnitudes. -/
def times (j k : Nat) : Nat :=
  nearest (numerator j * numerator k) (denominator j * denominator k)

/-- The correctly rounded quotient of a finite magnitude by another that is not zero. -/
def quotient (j k : Nat) : Nat :=
  nearest (numerator j * denominator k) (denominator j * numerator k)

end Magnitude

namespace Double

/-- The same NaN with its quiet bit set. -/
def quieted (d : Double) : Double := ⟨d.bits ||| 0x0008000000000000⟩

/-- The correctly rounded product. -/
def mul (a b : Double) : Double :=
  let negative := a.isNegative != b.isNegative
  if a.isNaN then a.quieted
  else if b.isNaN then b.quieted
  else if a.isFinite && b.isFinite then
    ofMagnitude negative (Magnitude.times a.magnitude b.magnitude)
  else if a.magnitude == 0 || b.magnitude == 0 then nan
  else infinity negative

end Double

end CircuitQir
