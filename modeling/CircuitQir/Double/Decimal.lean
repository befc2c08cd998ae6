import CircuitQir.Double.Rounding
/-!
# Decimals and the shortest digits of a double

A `Decimal` is `digits · 10 ^ exponent`. Reading one gives the nearest magnitude. Writing a
magnitude goes the other way: `Decimal.exact` is its full expansion (every finite magnitude has
one, since its denominator is a power of two), and `Decimal.shortest` is a decimal with the
fewest digits that still reads back as the same magnitude.

On the grid of the multiples of one power of ten only the two neighbours of a value can be the
grid point nearest to it, so the search tries those two on finer and finer grids and takes the
first hit. Seventeen digits always suffice; should no grid have a hit the expansion itself is
taken, so the result reads back in every case.
-/

namespace CircuitQir

/-- The number `digits · 10 ^ exponent`. -/
structure Decimal where
  digits : Nat
  exponent : Int
deriving DecidableEq, Repr, Inhabited

/-- Which of two equally near decimals is written. -/
inductive Tie where
  | up
  | even
deriving DecidableEq, Repr

namespace Decimal

/-- How many digits a natural number is written with. -/
def width (n : Nat) : Nat := (Nat.toDigits 10 n).length

/-- The magnitude nearest to a decimal, `Magnitude.infinity` where it is out of range.

A decimal whose leading digit stands far outside the range of finite magnitudes is settled
without forming its power of ten. -/
def magnitude (d : Decimal) : Nat :=
  let top : Int := width d.digits + d.exponent
  if d.digits = 0 then 0
  else if 310 < top then Magnitude.infinity
  else if top < -330 then 0
  else Magnitude.nearest (d.digits * 10 ^ d.exponent.toNat) (10 ^ (-d.exponent).toNat)

/-- The double nearest to a signed decimal. -/
def toDouble (negative : Bool) (d : Decimal) : Double :=
  Double.ofMagnitude negative d.magnitude

/-- The same number without trailing zeros among its digits. -/
def normalized (digits : Nat) (exponent : Int) : Decimal :=
  if 0 < digits ∧ digits % 10 = 0 then normalized (digits / 10) (exponent + 1)
  else ⟨digits, exponent⟩
termination_by digits
decreasing_by omega

/-- The full decimal expansion of a finite magnitude. -/
def exact (k : Nat) : Decimal :=
  let e := Magnitude.exponent k
  ⟨Magnitude.mantissa k * 2 ^ e.toNat * 5 ^ (-e).toNat, min e 0⟩

/-! ## The shortest decimal that reads back -/

/-- The power of ten of the leading digit of a finite magnitude other than zero. -/
def leadingExponent (k : Nat) : Int :=
  let whole := Magnitude.numerator k / Magnitude.denominator k
  if whole = 0 then -(width (Magnitude.denominator k / Magnitude.numerator k) : Int)
  else (width whole : Int) - 1

/-- The decimal nearest to a magnitude among the multiples of `10 ^ grid` that read back as it. -/
def onGrid? (tie : Tie) (k : Nat) (grid : Int) : Option Decimal :=
  let n := Magnitude.numerator k * 10 ^ (-grid).toNat
  let d := Magnitude.denominator k * 10 ^ grid.toNat
  let below : Decimal := ⟨n / d, grid⟩
  let above : Decimal := ⟨n / d + 1, grid⟩
  let rest := n % d
  let takesAbove :=
    d < 2 * rest || (2 * rest == d && (tie == .up || below.digits % 2 == 1))
  if below.magnitude = k then
    if above.magnitude = k && takesAbove then some above else some below
  else if above.magnitude = k then some above
  else none

/-- The fewest digits that read back as the magnitude, and of those the nearest. -/
def shortest (tie : Tie) (k : Nat) : Decimal :=
  let top := leadingExponent k
  let d := ((List.range 17).findSome? fun i : Nat => onGrid? tie k (top - i)).getD (exact k)
  normalized d.digits d.exponent

end Decimal

end CircuitQir
