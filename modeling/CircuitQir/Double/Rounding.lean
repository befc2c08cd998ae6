import CircuitQir.Double.Basic
/-!
# Rounding to the nearest double

`Magnitude.nearest num den` is the magnitude nearest to the quotient `num / den`; of two equally
near ones it takes the one with the even mantissa. The result is `infinity` from half a unit
above the largest finite magnitude on.

The exponent of the result is the largest `e` for which the quotient, measured in units of
`2 ^ e`, has 53 binary digits before the point, and never less than `-1074`. Since consecutive
magnitudes are consecutive naturals, the magnitude with mantissa `m` and exponent `e` is
`(e + 1074) · 2 ^ 52 + m`, and the same sum is right when rounding carries `m` up to `2 ^ 53`.
-/

namespace CircuitQir

/-- The natural number nearest to `num / den`, ties going to the even neighbour. -/
def roundHalfEven (num den : Nat) : Nat :=
  let q := num / den
  let r := num % den
  if 2 * r < den then q
  else if den < 2 * r then q + 1
  else q + q % 2

namespace Magnitude

/-- `num / den` in units of `2 ^ e`, as a quotient of naturals. -/
def scaled (num den : Nat) (e : Int) : Nat × Nat :=
  (num * 2 ^ (-e).toNat, den * 2 ^ e.toNat)

/-- The exponent at which the nearest magnitude to a positive `num / den` is found. -/
def unitExponent (num den : Nat) : Int :=
  let e : Int := (num.log2 : Int) - den.log2 - 52
  let (n, d) := scaled num den e
  max (-1074) (if n / d < 2 ^ 52 then e - 1 else e)

/-- The magnitude nearest to `num / den`, ties going to the even mantissa. -/
def nearest (num den : Nat) : Nat :=
  if num = 0 then 0
  else
    let e := unitExponent num den
    let (n, d) := scaled num den e
    min infinity ((e + 1074).toNat * 2 ^ 52 + roundHalfEven n d)

end Magnitude

end CircuitQir
