import CircuitQir.Bitstream.Field
/-!
# Packing bits into bytes

A `Packer` takes fields one after the other and hands out whole little-endian words of 32 bits.
Bits that do not fill a word yet wait in a pending number, the first of them lowest, so the bytes
of a finished packer, each read from its lowest bit on, are the bits of the fields in order.
-/

namespace CircuitQir.Bitstream

/-- The words packed so far, and the bits that wait for their word to fill. -/
structure Packer where
  bytes : Array UInt8
  /-- The waiting bits, the first of them least significant. -/
  pending : Nat
  /-- How many bits are waiting, fewer than 32. -/
  count : Nat
deriving Repr

namespace Packer

def empty : Packer := ⟨#[], 0, 0⟩

/-- The four bytes of a word, lowest first. -/
def wordBytes (word : Nat) : List UInt8 :=
  [UInt8.ofNat word, UInt8.ofNat (word / 2 ^ 8), UInt8.ofNat (word / 2 ^ 16),
    UInt8.ofNat (word / 2 ^ 24)]

/-- Appends the `width` bits of a number below `2 ^ width`, with `width` at most 32. -/
def emit (p : Packer) (value width : Nat) : Packer :=
  let pending := p.pending + value * 2 ^ p.count
  let count := p.count + width
  if 32 ≤ count then ⟨p.bytes ++ wordBytes pending, pending / 2 ^ 32, count - 32⟩
  else ⟨p.bytes, pending, count⟩

/-- Fills the waiting word with zeros. -/
def align (p : Packer) : Packer :=
  if p.count = 0 then p else p.emit 0 (32 - p.count)

/-- Takes one more field. -/
def write (p : Packer) : Field → Packer
  | .number value width => p.emit value width
  | .align => p.align

/-- The bytes of everything taken, the last word filled with zeros. -/
def finish (p : Packer) : List UInt8 := p.align.bytes.toList

end Packer

/-- The bytes that a list of fields is written as. -/
def pack (fs : List Field) : List UInt8 := (fs.foldl Packer.write Packer.empty).finish

end CircuitQir.Bitstream
