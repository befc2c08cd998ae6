/-!
# Whole numbers as decimal text

Numbers are written without leading zeros, a negative one with a minus sign.
-/

namespace CircuitQir.Numeral

def ofNat (n : Nat) : String := String.ofList (Nat.toDigits 10 n)

def ofInt (v : Int) : String := (if v < 0 then "-" else "") ++ ofNat v.natAbs

/-- The number that decimal digits spell. -/
def value (digits : List Char) : Nat := Nat.ofDigitChars 10 digits 0

theorem value_toDigits (n : Nat) : value (Nat.toDigits 10 n) = n :=
  Nat.ofDigitChars_toDigits (by decide) (by decide)

theorem ofNat_inj {m n : Nat} : ofNat m = ofNat n ↔ m = n := by
  constructor
  · intro h
    rw [← value_toDigits m, String.ofList_inj.mp h, value_toDigits]
  · rintro rfl
    rfl

end CircuitQir.Numeral
