import CircuitQir.Bitstream.Abbreviation
import CircuitQir.Bitstream.Entry
/-!
# Reading records

A record is spelled out in full, or laid out by an abbreviation. Either way it is read as the
same thing: its code, its operands, and the bytes of a blob if it has one.
-/

namespace CircuitQir.Bitstream

namespace Record

/-- Reads a record that is spelled out in full. -/
def read : Reader Record := do
  let code ← VbrWidth.six.read
  let count ← VbrWidth.six.read
  return ⟨code, ← Reader.times VbrWidth.six.read count, none⟩

/-- Reads the bytes of a blob, which start and end on word boundaries. -/
def readBlob : Reader (List UInt8) := do
  let count ← VbrWidth.six.read
  let c ← get
  if c.rest.length < count * 8 then throw (.endOfInput c.position)
  else
    Reader.align
    let bytes ← Reader.times (Reader.number 8) count
    Reader.align
    return bytes.map UInt8.ofNat

/-- Reads several scalars. -/
def readScalars : List Scalar → Reader (List Nat)
  | [] => return []
  | s :: rest => do
    let n ← s.read
    return n :: (← readScalars rest)

/-- Reads a record laid out by an abbreviation. Its first scalar is the code. -/
def readAbbreviated (a : Abbreviation) : Reader Record := do
  match a.scalars with
  | [] => Reader.malformed (← Reader.position) .aggregateCode
  | first :: others =>
    let code ← first.read
    let ops ← readScalars others
    match a.aggregate with
    | .none => return ⟨code, ops, none⟩
    | .array element =>
      let count ← VbrWidth.six.read
      return ⟨code, ops ++ (← Reader.times element.read count), none⟩
    | .blob => return ⟨code, ops, some (← readBlob)⟩

/-! ## Readers of records only move forward -/

open Reader

theorem forward_read : Forward 0 read :=
  (VbrWidth.six.forward_read.mono (Nat.zero_le _)).bind (n := 0) fun _ =>
    (VbrWidth.six.forward_read.mono (Nat.zero_le _)).bind (n := 0) fun count =>
      (forward_times (VbrWidth.six.forward_read.mono (Nat.zero_le _)) count).bind fun _ =>
        forward_pure _

theorem forward_readBlob : Forward 0 readBlob := by
  refine (VbrWidth.six.forward_read.mono (Nat.zero_le _)).bind (n := 0) fun count => ?_
  refine forward_get.bind (n := 0) fun c => ?_
  split
  · exact forward_throw _ _
  · refine forward_align.bind (n := 0) fun _ => ?_
    refine (forward_times ((forward_number 8).mono (Nat.zero_le _)) count).bind (n := 0)
      fun _ => ?_
    exact forward_align.bind fun _ => forward_pure _

theorem forward_readScalars (ss : List Scalar) : Forward 0 (readScalars ss) := by
  induction ss with
  | nil => exact forward_pure _
  | cons s ss ih => exact s.forward_read.bind (n := 0) fun _ => ih.bind fun _ => forward_pure _

theorem forward_readAbbreviated (a : Abbreviation) : Forward 0 (readAbbreviated a) := by
  obtain ⟨scalars, aggregate⟩ := a
  cases scalars with
  | nil => exact forward_position.bind (n := 0) fun _ => forward_throw _ _
  | cons first others =>
    refine first.forward_read.bind (n := 0) fun code => ?_
    refine (forward_readScalars others).bind (n := 0) fun ops => ?_
    cases aggregate with
    | none => exact forward_pure _
    | array element =>
      refine (VbrWidth.six.forward_read.mono (Nat.zero_le _)).bind (n := 0) fun count => ?_
      exact (forward_times element.forward_read count).bind fun _ => forward_pure _
    | blob => exact forward_readBlob.bind fun _ => forward_pure _

end Record

end CircuitQir.Bitstream
