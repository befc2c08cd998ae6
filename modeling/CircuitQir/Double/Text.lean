import CircuitQir.Double.Decimal
/-!
# Doubles as text

A `NumberFormat` says how a finite double is written from its shortest digits: which way ties
go, which numbers are written positionally and which with an exponent, and whether a whole number
keeps a decimal place.

`Double.text` is the everyday form, always positional and without a needless point.
`Double.literal` is the form of a constant operand: a whole number is written out exactly with
one decimal place, so that it cannot be taken for an integer, and any other number as in
`Double.text`.
-/

namespace CircuitQir

/-- How the shortest digits of a double are laid out. -/
structure NumberFormat where
  /-- Which of two equally short and equally near decimals is written. -/
  tie : Tie
  /-- Whether a number whose leading digit has this power of ten is written without exponent. -/
  positional : Int → Bool
  /-- Whether a whole number written positionally ends in `.0`. -/
  keepsPlace : Bool

namespace Decimal

/-- The digits of a decimal with the point in its place. -/
def positional (d : Decimal) : List Char :=
  let ds := Nat.toDigits 10 d.digits
  if 0 ≤ d.exponent then ds ++ List.replicate d.exponent.toNat '0'
  else
    let places := (-d.exponent).toNat
    if places < ds.length then
      ds.take (ds.length - places) ++ '.' :: ds.drop (ds.length - places)
    else '0' :: '.' :: (List.replicate (places - ds.length) '0' ++ ds)

/-- The leading digit, the other digits behind a point, and a signed power of ten. -/
def scientific (d : Decimal) : List Char :=
  let ds := Nat.toDigits 10 d.digits
  let e : Int := d.exponent + ds.length - 1
  let fraction := if ds.tail.isEmpty then [] else '.' :: ds.tail
  let power := (if e < 0 then '-' else '+') :: Nat.toDigits 10 e.natAbs
  ds.take 1 ++ fraction ++ 'e' :: power

end Decimal

namespace Double

/-- The sign of a number that is not a NaN. -/
def signText (d : Double) : List Char := if d.isNegative then ['-'] else []

/-- A finite double in the given format. -/
def format (f : NumberFormat) (d : Double) : List Char :=
  let place := if f.keepsPlace then ['.', '0'] else []
  if d.magnitude = 0 then d.signText ++ '0' :: place
  else
    let s := Decimal.shortest f.tie d.magnitude
    if f.positional (s.exponent + Decimal.width s.digits - 1) then
      d.signText ++ s.positional ++ (if 0 ≤ s.exponent then place else [])
    else d.signText ++ s.scientific

/-- Positional at every size, a tie going up, and no point in a whole number. -/
def everyday : NumberFormat := ⟨.up, fun _ => true, false⟩

/-- A double the way messages and displays show it. -/
def text (d : Double) : String :=
  if d.isNaN then "NaN"
  else if d.isFinite then String.ofList (d.format everyday)
  else String.ofList (d.signText ++ ['i', 'n', 'f'])

/-- A double the way an operand shows it: all digits and `.0` where it is whole. -/
def literal (d : Double) : String :=
  if d.isFinite && Magnitude.isWhole d.magnitude then
    let whole := Magnitude.numerator d.magnitude / Magnitude.denominator d.magnitude
    String.ofList (d.signText ++ Nat.toDigits 10 whole ++ ['.', '0'])
  else d.text

end Double

end CircuitQir
