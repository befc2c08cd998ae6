import CircuitQir.Bits
/-!
# Binary64 numbers

A `Double` is its 64 bits. The sign is the top bit; the other 63 bits, read as one natural
number, are the *magnitude*. Magnitudes are ordered as the absolute values they stand for, so
"the next larger double" is "the next natural number", and the largest magnitudes are infinity
and, above it, the NaNs.

Nothing here uses machine floating point: a finite magnitude is `mantissa · 2 ^ exponent` over
the integers, and every operation of the library on doubles is exact integer arithmetic followed
by one rounding.
-/

namespace CircuitQir

/-- A binary64 number, held as its bits, so that `=` tells the two zeros and the NaNs apart. -/
structure Double where
  bits : UInt64
deriving DecidableEq, Repr, Inhabited

namespace Magnitude

/-- All exponent bits set and no fraction bit: what every overflow rounds to. -/
def infinity : Nat := 0x7ff * 2 ^ 52

/-- The integer factor of a finite magnitude: the fraction, with the hidden bit where the
exponent field is not zero. -/
def mantissa (k : Nat) : Nat :=
  if k < 2 ^ 52 then k else k % 2 ^ 52 + 2 ^ 52

/-- The power of two of a finite magnitude. Subnormal numbers share the least one. -/
def exponent (k : Nat) : Int :=
  if k < 2 ^ 52 then -1074 else (k / 2 ^ 52 : Nat) - 1075

/-- The numerator of a finite magnitude as a quotient of naturals. -/
def numerator (k : Nat) : Nat := mantissa k * 2 ^ (exponent k).toNat

/-- The denominator of a finite magnitude as a quotient of naturals, a power of two. -/
def denominator (k : Nat) : Nat := 2 ^ (-exponent k).toNat

theorem denominator_pos (k : Nat) : 0 < denominator k :=
  Nat.pow_pos (by decide)

/-- Whether a finite magnitude has no fractional part. -/
def isWhole (k : Nat) : Bool := numerator k % denominator k = 0

end Magnitude

namespace Double

/-- The sign bit, set in `-0.0` and possibly in a NaN as well. -/
def isNegative (d : Double) : Bool := 2 ^ 63 ≤ d.bits.toNat

/-- The exponent and fraction bits, read as one number below `2 ^ 63`. -/
def magnitude (d : Double) : Nat := d.bits.toNat % 2 ^ 63

/-- The double with the given sign and magnitude. -/
def ofMagnitude (negative : Bool) (k : Nat) : Double :=
  ⟨UInt64.ofNat (k + if negative then 2 ^ 63 else 0)⟩

/-- Neither infinite nor a NaN. -/
def isFinite (d : Double) : Bool := d.magnitude < Magnitude.infinity

def isNaN (d : Double) : Bool := Magnitude.infinity < d.magnitude

/-- The NaN that a spelled-out `nan` denotes. -/
def nan : Double := ⟨0x7ff8000000000000⟩

/-- The infinity of the given sign. -/
def infinity (negative : Bool) : Double := ofMagnitude negative Magnitude.infinity

/-- Equality of the numbers, not of the bits: a NaN equals nothing, and the zeros are equal. -/
def numericallyEqual (a b : Double) : Bool :=
  !a.isNaN && !b.isNaN && (a == b || (a.magnitude == 0 && b.magnitude == 0))

/-! ## Sign and magnitude determine a double -/

theorem magnitude_lt (d : Double) : d.magnitude < 2 ^ 63 :=
  Nat.mod_lt _ (by decide)

theorem ofMagnitude_isNegative_magnitude (d : Double) :
    ofMagnitude d.isNegative d.magnitude = d := by
  have h := d.bits.toNat_lt
  have key : d.magnitude + (if d.isNegative then 2 ^ 63 else 0) = d.bits.toNat := by
    simp only [magnitude, isNegative, decide_eq_true_eq]
    split <;> omega
  rw [ofMagnitude, key, UInt64.ofNat_toNat]

theorem magnitude_ofMagnitude (s : Bool) {k : Nat} (h : k < 2 ^ 63) :
    (ofMagnitude s k).magnitude = k := by
  cases s <;> simp only [ofMagnitude, magnitude, UInt64.toNat_ofNat', Bool.false_eq_true,
    if_true, if_false] <;> omega

theorem isNegative_ofMagnitude (s : Bool) {k : Nat} (h : k < 2 ^ 63) :
    (ofMagnitude s k).isNegative = s := by
  cases s <;> simp only [ofMagnitude, isNegative, UInt64.toNat_ofNat', Bool.false_eq_true,
    if_true, if_false, decide_eq_true_eq, decide_eq_false_iff_not] <;> omega

end Double

end CircuitQir
