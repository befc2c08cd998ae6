import CircuitQir.Bitstream.Cursor
/-!
# Variable-width numbers

A number of any size is cut into pieces from its low end, each piece with one bit less than the
width; the spare top bit of a piece says whether another piece follows.
-/

namespace CircuitQir.Bitstream

/-- The width of the pieces of a variable-width number: one bit to continue, and at least one
for the value. -/
structure VbrWidth where
  bits : Nat
  two_le : 2 ≤ bits
deriving DecidableEq, Repr

namespace VbrWidth

/-- How many values a piece can hold. -/
def base (w : VbrWidth) : Nat := 2 ^ (w.bits - 1)

theorem two_le_base (w : VbrWidth) : 2 ≤ w.base := by
  have h := w.two_le
  have : 2 ^ 1 ≤ 2 ^ (w.bits - 1) := Nat.pow_le_pow_right (by decide) (by omega)
  simpa [base] using this

/-- The widths that the container itself uses. -/
def four : VbrWidth := ⟨4, by decide⟩
@[inherit_doc four] def five : VbrWidth := ⟨5, by decide⟩
@[inherit_doc four] def six : VbrWidth := ⟨6, by decide⟩
@[inherit_doc four] def eight : VbrWidth := ⟨8, by decide⟩

/-- The pieces of a number, the lowest first. -/
def fields (w : VbrWidth) (value : Nat) : List Field :=
  if value < w.base then [.number value w.bits]
  else .number (value % w.base + w.base) w.bits :: fields w (value / w.base)
termination_by value
decreasing_by
  have := w.two_le_base
  exact Nat.div_lt_self (by omega) this

/-- Reads the pieces from the one whose lowest bit stands for `2 ^ shift` on. The whole number
began at bit `start`, and has to stay below `2 ^ 64`. -/
def readFrom (w : VbrWidth) (start shift : Nat) : Reader Nat := do
  let piece ← Reader.number w.bits
  let value := piece % w.base * 2 ^ shift
  if _h : 64 ≤ shift ∨ 2 ^ 64 ≤ value then Reader.malformed start .integerOverflow
  else if piece < w.base then return value
  else return value + (← readFrom w start (shift + (w.bits - 1)))
termination_by 64 - shift
decreasing_by
  have := w.two_le
  omega

/-- Reads a variable-width number. -/
def read (w : VbrWidth) : Reader Nat := do
  readFrom w (← Reader.position) 0

theorem forward_readFrom (w : VbrWidth) (start shift : Nat) :
    Reader.Forward 1 (w.readFrom start shift) := by
  induction h : 64 - shift using Nat.strongRecOn generalizing shift with
  | ind n ih =>
    have hw := w.two_le
    rw [readFrom]
    have hforward := (Reader.forward_number w.bits).mono (by omega : 1 ≤ w.bits)
    refine hforward.bind (n := 0) fun piece => ?_
    dsimp only
    split
    · exact Reader.forward_throw _ _
    · split
      · exact Reader.forward_pure _
      · exact ((ih _ (by omega) _ rfl).mono (Nat.zero_le _)).bind fun _ => Reader.forward_pure _

theorem forward_read (w : VbrWidth) : Reader.Forward 1 w.read :=
  Reader.forward_position.bind fun _ => w.forward_readFrom _ _

end VbrWidth

end CircuitQir.Bitstream
