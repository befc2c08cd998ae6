import CircuitQir.Double.Stepwise
import CircuitQir.Text.Numeral
/-!
# Numbers of JSON

A number has a whole part, and possibly a fraction and a power of ten. Whole numbers that fit into
64 bits stay whole numbers. Every other number becomes a double, and quickly rather than as nearly
as possible: its first digits, as many as make up a number of 64 bits, are scaled by the power of
ten step by step (`Decimal.stepwise?`), so the last bits of the double may be off.

A number beyond the range of doubles does not break a text. It is read as a number without a
value, and only a reader that needs the value stumbles over it.
-/

namespace CircuitQir.Json

/-- A number as read. -/
inductive Number where
  /-- A whole number without a sign, below `2 ^ 64`. -/
  | natural (n : Nat)
  /-- Minus a positive whole number of at most `2 ^ 63`. -/
  | negative (n : Nat)
  /-- Any other: with a fraction or an exponent, minus zero, or beyond 64 bits. -/
  | double (d : Double)
deriving DecidableEq, Repr

/-! ## The parts of a number -/

/-- The whole part of a number: a lone zero, or digits that start with another. -/
def wholeDigits? : List Char → Option (List Char × List Char)
  | '0' :: c :: rest => if c.isDigit then none else some (['0'], c :: rest)
  | cs =>
    if (cs.takeWhile Char.isDigit).isEmpty then none
    else some (cs.takeWhile Char.isDigit, cs.dropWhile Char.isDigit)

/-- The digits behind a point. -/
def fraction? : List Char → Option (List Char × List Char)
  | '.' :: cs =>
    if (cs.takeWhile Char.isDigit).isEmpty then none
    else some (cs.takeWhile Char.isDigit, cs.dropWhile Char.isDigit)
  | cs => some ([], cs)

/-- The power of ten behind the letter for it. -/
def power? : List Char → Option (Option Int × List Char)
  | c :: cs =>
    if c = 'e' ∨ c = 'E' then
      let negative := cs.head? = some '-'
      let cs := if cs.head? = some '-' ∨ cs.head? = some '+' then cs.tail else cs
      let n : Int := Numeral.value (cs.takeWhile Char.isDigit)
      if (cs.takeWhile Char.isDigit).isEmpty then none
      else some (some (if negative then -n else n), cs.dropWhile Char.isDigit)
    else some (none, c :: cs)
  | [] => some (none, [])

/-- The number that digits lead to from the given one on, as long as it has 64 bits, and the digits
behind those. -/
def significand (n : Nat) : List Char → Nat × List Char
  | [] => (n, [])
  | c :: cs =>
    if 10 * n + (c.toNat - '0'.toNat) < 2 ^ 64 then
      significand (10 * n + (c.toNat - '0'.toNat)) cs
    else (n, c :: cs)

/-- A decimal as a double, unless it is out of range. -/
def real (negative : Bool) (d : Decimal) : Option Number :=
  d.stepwise?.map fun k => .double (.ofMagnitude negative k)

/-- The number with the given parts. Digits that do not fit count as zeros in front of the point,
and not at all behind it.

A power of ten may be of any size: from 32 bits on it makes a number zero or puts it out of range
either way. -/
def numberOf (negative : Bool) (whole fraction : List Char) (power : Option Int) :
    Option Number :=
  let (n, zeros) := significand 0 whole
  if zeros.isEmpty && fraction.isEmpty && power.isNone then
    if !negative then some (.natural n)
    else if 0 < n && n ≤ 2 ^ 63 then some (.negative n)
    else some (.double (.ofMagnitude true (Magnitude.nearest n 1)))
  else
    let (digits, rest) := significand n fraction
    let places : Int := (zeros.length : Int) - (fraction.length - rest.length : Nat)
    real negative ⟨digits, places + power.getD 0⟩

/-- A number at the front of a text, and what follows it. -/
def number? (cs : List Char) : Option (Option Number × List Char) := do
  let negative := cs.head? = some '-'
  let (whole, rest) ← wholeDigits? (if negative then cs.tail else cs)
  let (fraction, rest) ← fraction? rest
  let (power, rest) ← power? rest
  return (numberOf negative whole fraction power, rest)

/-! ## A number takes up characters -/

theorem length_dropWhile_lt {p : Char → Bool} {cs : List Char}
    (h : (cs.takeWhile p).isEmpty = false) : (cs.dropWhile p).length < cs.length := by
  cases cs with
  | nil => simp at h
  | cons c cs =>
    cases hp : p c with
    | false => simp [hp] at h
    | true =>
      have := (List.dropWhile_suffix p (l := cs)).length_le
      simp [hp]
      omega

theorem wholeDigits?_lt {cs ds rest : List Char} (h : wholeDigits? cs = some (ds, rest)) :
    rest.length < cs.length := by
  unfold wholeDigits? at h
  split at h
  · split at h
    · exact nomatch h
    · cases h
      simp
  · split at h
    · exact nomatch h
    · rename_i hne
      cases h
      exact length_dropWhile_lt (by simpa using hne)

theorem fraction?_le {cs ds rest : List Char} (h : fraction? cs = some (ds, rest)) :
    rest.length ≤ cs.length := by
  unfold fraction? at h
  split at h
  · split at h
    · exact nomatch h
    · cases h
      exact Nat.le_succ_of_le (List.dropWhile_suffix _).length_le
  · cases h
    exact Nat.le_refl _

theorem power?_le {cs rest : List Char} {e : Option Int} (h : power? cs = some (e, rest)) :
    rest.length ≤ cs.length := by
  unfold power? at h
  split at h
  · split at h
    · simp only [Option.ite_none_left_eq_some, Option.some.injEq, Prod.mk.injEq] at h
      obtain ⟨-, -, rfl⟩ := h
      refine Nat.le_trans (List.dropWhile_suffix _).length_le ?_
      split
      · simp only [List.length_tail, List.length_cons]
        omega
      · simp
    · cases h
      exact Nat.le_refl _
  · cases h
    exact Nat.le_refl _

theorem number?_lt {cs rest : List Char} {n : Option Number}
    (h : number? cs = some (n, rest)) : rest.length < cs.length := by
  simp only [number?, Option.bind_eq_bind, Option.bind_eq_some_iff, Prod.exists,
    Option.pure_def, Option.some.injEq, Prod.mk.injEq] at h
  obtain ⟨ds, r₁, hw, fs, r₂, hf, e, r₃, hp, -, rfl⟩ := h
  have h₁ := wholeDigits?_lt hw
  have h₂ := fraction?_le hf
  have h₃ := power?_le hp
  have h₀ : (if cs.head? = some '-' then cs.tail else cs).length ≤ cs.length := by
    split <;> simp
  omega

end CircuitQir.Json
