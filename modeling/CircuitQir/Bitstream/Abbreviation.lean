import CircuitQir.Bitstream.Vbr
/-!
# Abbreviations

An abbreviation is a layout for records: scalar operands one after the other, and possibly an
array or a blob behind them. Its definition in the stream is a list of operands in which an array
is followed by the operand for its elements; `Abbreviation.ofOperands` accepts the lists in which
aggregates stand only at the end.
-/

namespace CircuitQir.Bitstream

/-- How one number of a record is written. -/
inductive Scalar where
  /-- Not at all: the abbreviation fixes the number. -/
  | literal (value : Nat)
  | fixed (width : Nat)
  | vbr (width : VbrWidth)
  /-- Six bits for one of `a`–`z`, `A`–`Z`, `0`–`9`, `.` and `_`. -/
  | character
deriving DecidableEq, Repr

/-- An operand as it stands in the definition of an abbreviation. -/
inductive AbbreviationOperand where
  | scalar (s : Scalar)
  | array
  | blob
deriving DecidableEq, Repr

/-- What follows the scalars of an abbreviated record. -/
inductive Aggregate where
  | none
  /-- A count and as many numbers. -/
  | array (element : Scalar)
  /-- A count and as many bytes, on word boundaries. -/
  | blob
deriving DecidableEq, Repr

/-- A layout for records. -/
structure Abbreviation where
  scalars : List Scalar
  aggregate : Aggregate
deriving DecidableEq, Repr

namespace Scalar

def isLiteral : Scalar → Bool
  | literal _ => true
  | _ => false

/-- The code of the character with the given six-bit number. -/
def characterCode (n : Nat) : Nat :=
  if n < 26 then 'a'.toNat + n
  else if n < 52 then 'A'.toNat + (n - 26)
  else if n < 62 then '0'.toNat + (n - 52)
  else if n = 62 then '.'.toNat
  else '_'.toNat

def read : Scalar → Reader Nat
  | literal value => return value
  | fixed width => Reader.number width
  | vbr width => width.read
  | character => return characterCode (← Reader.number 6)

end Scalar

namespace AbbreviationOperand

/-- The width of an operand that declares one. The definition began at bit `start`. -/
def readWidth (start : Nat) : Reader Nat := do
  let width ← VbrWidth.five.read
  if width ≤ 64 then return width
  else Reader.malformed start .operandTooWide

/-- Reads one operand of a definition that began at bit `start`. A number without bits is always
zero. -/
def read (start : Nat) : Reader AbbreviationOperand := do
  if (← Reader.number 1) = 1 then return .scalar (.literal (← VbrWidth.eight.read))
  else
    match ← Reader.number 3 with
    | 1 =>
      let width ← readWidth start
      return .scalar (if width = 0 then .literal 0 else .fixed width)
    | 2 =>
      let width ← readWidth start
      if h : 2 ≤ width then return .scalar (.vbr ⟨width, h⟩)
      else if width = 0 then return .scalar (.literal 0)
      else Reader.malformed start .operandTooNarrow
    | 3 => return .array
    | 4 => return .scalar .character
    | 5 => return .blob
    | _ => Reader.malformed start .unknownEncoding

end AbbreviationOperand

namespace Abbreviation

/-- The layout that a list of operands defines. An array needs the operand of its elements, which
has to take up space, and nothing may follow the one or the other. -/
def ofOperands : List AbbreviationOperand → Except Flaw Abbreviation
  | [] => .ok ⟨[], .none⟩
  | .scalar s :: rest => (ofOperands rest).map fun a => ⟨s :: a.scalars, a.aggregate⟩
  | [.array, .scalar s] =>
    if s.isLiteral then .error .arrayElement else .ok ⟨[], .array s⟩
  | .array :: _ => .error .arrayElement
  | [.blob] => .ok ⟨[], .blob⟩
  | .blob :: _ => .error .blobNotLast

/-- Reads the definition of an abbreviation. -/
def read : Reader Abbreviation := do
  let start ← Reader.position
  let count ← VbrWidth.five.read
  let operands ← Reader.times (AbbreviationOperand.read start) count
  match ofOperands operands with
  | .error flaw => Reader.malformed start flaw
  | .ok a =>
    if operands.isEmpty then Reader.malformed start .emptyAbbreviation
    else return a

end Abbreviation

/-! ## Readers of abbreviations only move forward -/

theorem Scalar.forward_read (s : Scalar) : Reader.Forward 0 s.read := by
  cases s with
  | literal value => exact Reader.forward_pure _
  | fixed width => exact (Reader.forward_number width).mono (Nat.zero_le _)
  | vbr width => exact width.forward_read.mono (Nat.zero_le _)
  | character =>
    exact ((Reader.forward_number 6).mono (Nat.zero_le _)).bind fun _ => Reader.forward_pure _

theorem AbbreviationOperand.forward_readWidth (start : Nat) :
    Reader.Forward 0 (readWidth start) := by
  refine (VbrWidth.five.forward_read.mono (Nat.zero_le _)).bind (n := 0) fun width => ?_
  split
  · exact Reader.forward_pure _
  · exact Reader.forward_throw _ _

theorem AbbreviationOperand.forward_read (start : Nat) : Reader.Forward 0 (read start) := by
  refine ((Reader.forward_number 1).mono (Nat.zero_le _)).bind (n := 0) fun flag => ?_
  split
  · exact (VbrWidth.eight.forward_read.mono (Nat.zero_le _)).bind fun _ => Reader.forward_pure _
  · refine ((Reader.forward_number 3).mono (Nat.zero_le _)).bind (n := 0) fun encoding => ?_
    split
    · exact (forward_readWidth start).bind fun _ => Reader.forward_pure _
    · refine (forward_readWidth start).bind (n := 0) fun width => ?_
      split
      · exact Reader.forward_pure _
      · split
        · exact Reader.forward_pure _
        · exact Reader.forward_throw _ _
    · exact Reader.forward_pure _
    · exact Reader.forward_pure _
    · exact Reader.forward_pure _
    · exact Reader.forward_throw _ _

theorem Abbreviation.forward_read : Reader.Forward 0 read := by
  refine Reader.forward_position.bind (n := 0) fun start => ?_
  refine (VbrWidth.five.forward_read.mono (Nat.zero_le _)).bind (n := 0) fun count => ?_
  refine (Reader.forward_times (AbbreviationOperand.forward_read start) count).bind (n := 0)
    fun operands => ?_
  split
  · exact Reader.forward_throw _ _
  · split
    · exact Reader.forward_throw _ _
    · exact Reader.forward_pure _

end CircuitQir.Bitstream
