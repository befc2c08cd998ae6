/-!
# The contents of a bitstream

What a reader finds in a bitstream: blocks with an id, and in a block records and inner blocks
in the order they were written. How a record was abbreviated is not part of the contents.
-/

namespace CircuitQir.Bitstream

/-- A record: what it is about, its numbers, and the bytes attached to it if there are any. -/
structure Record where
  code : Nat
  ops : List Nat
  blob : Option (List UInt8)
deriving DecidableEq, Repr, Inhabited

/-- What a block consists of. -/
inductive Entry where
  | record (r : Record)
  | block (id : Nat) (entries : List Entry)
deriving Repr, Inhabited

/-- A block. -/
structure Block where
  id : Nat
  entries : List Entry
deriving Repr, Inhabited

namespace Entry

def record? : Entry → Option Record
  | record r => some r
  | block _ _ => none

def block? : Entry → Option Block
  | record _ => none
  | block id entries => some ⟨id, entries⟩

end Entry

namespace Block

/-- The records directly in a block. -/
def records (b : Block) : List Record := b.entries.filterMap Entry.record?

/-- The blocks directly in a block. -/
def blocks (b : Block) : List Block := b.entries.filterMap Entry.block?

end Block

end CircuitQir.Bitstream
