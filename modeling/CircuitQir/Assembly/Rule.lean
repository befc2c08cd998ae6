import CircuitQir.Double.Decimal
import CircuitQir.Text.Numeral
/-!
# Rules for lines

A `Rule` reads a value off the front of a line. It leaves the rest of the line, or fails and
tells what lay ahead where it stopped, so that a message can point there.

The rules stand for the combinators of a package of its own (`winnow`), of which this is assumed,
as its documentation has it:

* Parts in a row are read one behind the other, and fail where the first of them fails. A text or a
  run of at least one character fails where it starts (`literal`, `take_while`).
* A choice starts each of its alternatives at the same place, takes the first that fits and fails
  where the last of them does (`alt`).
* An optional part never fails. What does not fit is given back whole (`opt`).
* A list never fails. It takes an item, and then a separator with an item as often as both fit. A
  separator that no item follows is given back (`separated`, from no item on).
* A number without a sign is a lone zero, or digits that start with another. In front of digits that
  start with another there may be a sign, but not in front of a zero. Without digits, or out of
  range of its type, a number fails where it starts (`dec_uint`, `dec_int`).
* A decimal number has a sign or none, digits with a point before, between or behind them, and a
  power of ten or none, whose letter has to be followed by digits. It is read as the nearest double,
  beyond all finite ones as an infinity. The words for a NaN and the infinities go in any mixture of
  cases (`float`).
-/

namespace CircuitQir.Assembly

/-- A way to read a value off the front of a line. -/
abbrev Rule (α : Type) := StateT (List Char) (Except (List Char)) α

namespace Rule

/-- Fails at the current place. -/
def fail {α : Type} : Rule α := do throw (← get)

/-- The first alternative, or the second from the same place. -/
def either {α : Type} (r s : Rule α) : Rule α := fun line =>
  match r line with
  | .ok result => .ok result
  | .error _ => s line

/-- The first of several alternatives that fits. -/
def choice {α : Type} : List (Rule α) → Rule α
  | [] => fail
  | [r] => r
  | r :: rs => either r (choice rs)

/-- The value of a rule, or nothing where it does not fit. -/
def optional {α : Type} (r : Rule α) : Rule (Option α) := fun line =>
  match r line with
  | .ok (x, rest) => .ok (some x, rest)
  | .error _ => .ok (none, line)

/-- What follows a list of characters at the front of a line. -/
def afterPrefix? : List Char → List Char → Option (List Char)
  | [], line => some line
  | _ :: _, [] => none
  | c :: cs, d :: line => if c = d then afterPrefix? cs line else none

/-- Exactly the given text. -/
def literal (text : String) : Rule Unit := fun line =>
  match afterPrefix? text.toList line with
  | some rest => .ok ((), rest)
  | none => .error line

/-- The given text in any mixture of cases. The text itself is lower-case ASCII. -/
def keyword (text : String) : Rule Unit := fun line =>
  match afterPrefix? text.toList ((line.take text.length).map Char.toLower) with
  | some _ => .ok ((), line.drop text.length)
  | none => .error line

/-- All characters of a kind that come next. -/
def many (p : Char → Bool) : Rule (List Char) := fun line =>
  .ok (line.takeWhile p, line.dropWhile p)

/-- All characters of a kind that come next, of which there must be one. -/
def many1 (p : Char → Bool) : Rule (List Char) := fun line =>
  if (line.takeWhile p).isEmpty then .error line else .ok (line.takeWhile p, line.dropWhile p)

/-- More items, each behind a separator. A separator without an item is left alone. -/
def more {α : Type} (separator : String) (item : Rule α) (line : List Char) :
    List α × List Char :=
  match (do literal separator; item : Rule α) line with
  | .ok (x, rest) =>
    if rest.length < line.length then
      let (xs, rest) := more separator item rest
      (x :: xs, rest)
    else ([], line)
  | .error _ => ([], line)
termination_by line.length

/-- Any number of items with a separator between them. -/
def separated {α : Type} (separator : String) (item : Rule α) : Rule (List α) := fun line =>
  match item line with
  | .ok (x, rest) =>
    let (xs, rest) := more separator item rest
    .ok (x :: xs, rest)
  | .error _ => .ok ([], line)

/-! ## Numbers -/

def isSign (c : Char) : Bool := c == '+' || c == '-'

/-- The digits of a number without needless zeros: a lone zero ends the number. -/
def digits : Rule (List Char) := fun line =>
  match line with
  | '0' :: rest => .ok (['0'], rest)
  | _ => many1 Char.isDigit line

/-- A number below a bound. One out of range fails where it began. -/
def natural (bound : Nat) : Rule Nat := fun line =>
  match digits line with
  | .ok (ds, rest) =>
    if Numeral.value ds < bound then .ok (Numeral.value ds, rest) else .error line
  | .error _ => .error line

/-- A signed number from `-bound` up to below `bound`. Zero takes no sign. -/
def integer (bound : Nat) : Rule Int := fun line =>
  let sign := line.take 1 |>.filter isSign
  match digits (line.drop sign.length) with
  | .ok (ds, rest) =>
    let n : Int := Numeral.value ds
    let v := if sign = ['-'] then -n else n
    if !sign.isEmpty && n == 0 then .error line
    else if -bound ≤ v ∧ v < bound then .ok (v, rest)
    else .error line
  | .error _ => .error line

/-- Whether a sign, if there is one, is a minus. -/
def sign : Rule Bool := fun line =>
  match line with
  | '-' :: rest => .ok (true, rest)
  | '+' :: rest => .ok (false, rest)
  | _ => .ok (false, line)

/-- Digits with a point before, between or behind them: those before it, and those behind. -/
def pointed : Rule (List Char × List Char) :=
  either
    (do
      let whole ← many1 Char.isDigit
      let fraction ← optional (do literal "."; many Char.isDigit)
      return (whole, fraction.getD []))
    (do
      literal "."
      return ([], ← many1 Char.isDigit))

/-- A power of ten behind a number. Its letter has to be followed by digits. -/
def power : Rule Int := do
  let line ← get
  match line with
  | c :: _ =>
    if c == 'e' || c == 'E' then
      set (line.drop 1)
      let negative ← sign
      let n : Int := Numeral.value (← many1 Char.isDigit)
      return if negative then -n else n
    else return 0
  | [] => return 0

/-- A decimal number, rounded to the nearest double. -/
def decimal : Rule Double := do
  let negative ← sign
  let (whole, fraction) ← pointed
  let p ← power
  return Decimal.toDouble negative ⟨Numeral.value (whole ++ fraction), p - fraction.length⟩

/-- A decimal number, `nan`, or an infinity of either sign. -/
def float : Rule Double :=
  choice
    [ decimal,
      (do keyword "nan"; return Double.nan),
      (do
        let negative ← sign
        keyword "infinity"
        return Double.infinity negative),
      (do
        let negative ← sign
        keyword "inf"
        return Double.infinity negative) ]

end Rule

end CircuitQir.Assembly
