import CircuitQir.Bits
/-!
# Fields of a bitstream

What a writer puts into a bitstream is a list of *fields*: numbers of a fixed width, and requests
to pad with zeros up to the next multiple of 32 bits. `Field.bits` says which bits a list of
fields stands for, given the position it starts at, and `Field.extent` where it ends.
-/

namespace CircuitQir.Bitstream

/-- One step of writing a bitstream. -/
inductive Field where
  /-- The lowest `width` bits of a number. -/
  | number (value width : Nat)
  /-- Zeros up to the next word boundary, none if the position is on one. -/
  | align
deriving DecidableEq, Repr

/-- How many bits are missing to the next multiple of 32. -/
def padding (position : Nat) : Nat := (32 - position % 32) % 32

namespace Field

/-- The position after a field written at the given position. -/
def after (position : Nat) : Field → Nat
  | number _ width => position + width
  | align => position + padding position

/-- The bits of one field written at the given position. -/
def bitsAt (position : Nat) : Field → List Bool
  | number value width => Bits.ofNat width value
  | align => List.replicate (padding position) false

/-- The bits that fields stand for when the first starts at the given position. -/
def bits (position : Nat) : List Field → List Bool
  | [] => []
  | f :: fs => f.bitsAt position ++ bits (f.after position) fs

/-- Where fields end when the first starts at the given position. -/
def extent (position : Nat) (fs : List Field) : Nat := fs.foldl after position

@[simp] theorem length_bitsAt (position : Nat) (f : Field) :
    (f.bitsAt position).length = f.after position - position := by
  cases f <;> simp [bitsAt, after]

theorem le_after (position : Nat) (f : Field) : position ≤ f.after position := by
  cases f <;> simp [after]

theorem extent_eq (position : Nat) (fs : List Field) :
    extent position fs = position + (bits position fs).length := by
  induction fs generalizing position with
  | nil => simp [extent, bits]
  | cons f fs ih =>
    have h := le_after position f
    have hl : extent position (f :: fs) = extent (f.after position) fs := rfl
    rw [hl, ih]
    simp only [bits, List.length_append, length_bitsAt]
    omega

theorem bits_append (position : Nat) (fs gs : List Field) :
    bits position (fs ++ gs) = bits position fs ++ bits (extent position fs) gs := by
  induction fs generalizing position with
  | nil => simp [bits, extent]
  | cons f fs ih =>
    have hl : extent position (f :: fs) = extent (f.after position) fs := rfl
    simp [bits, ih, hl]

theorem extent_append (position : Nat) (fs gs : List Field) :
    extent position (fs ++ gs) = extent (extent position fs) gs := by
  simp [extent]

end Field

end CircuitQir.Bitstream
