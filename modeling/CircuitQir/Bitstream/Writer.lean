import CircuitQir.Bitstream.Item
/-!
# Writing a stream call by call

A `Writer` is told one thing after the other: that a block starts, what a record consists of, that
the block ends. How long a block is going to be is not known when it starts, so its length is
first written as zero, and the word is filled in when the block ends. A writer knows the width of
abbreviation ids in the block it is in, and for every open block the width around it and the place
of its length.
-/

namespace CircuitQir.Bitstream

/-- What is needed when a block ends: the width of ids around it, and where its length stands. -/
structure Scope where
  outerWidth : Nat
  lengthPlace : Nat
deriving Repr

/-- A stream that is being written. -/
structure Writer where
  packer : Packer
  /-- How many bits an abbreviation id takes. -/
  width : Nat
  /-- The open blocks, the innermost first. -/
  scopes : List Scope
deriving Repr

namespace Writer

/-- Adds fields. -/
def put (w : Writer) (fs : List Field) : Writer :=
  { w with packer := fs.foldl Packer.write w.packer }

/-- A stream of which only the magic number has been written. -/
def start (magic : List UInt8) : Writer :=
  (Writer.mk .empty topLevelWidth []).put (magicFields magic)

/-- The start of a block up to its length. -/
def blockStart (outer id width : Nat) : List Field :=
  .number 1 outer :: (VbrWidth.eight.fields id ++ VbrWidth.four.fields width ++ [.align])

/-- Starts a block with ids of the given width, of a length not known yet. -/
def enterBlock (w : Writer) (id width : Nat) : Writer :=
  let w := w.put (blockStart w.width id width)
  let scope := ⟨w.width, w.packer.bytes.size⟩
  { w.put [.number 0 32] with width, scopes := scope :: w.scopes }

/-- Bytes with some of them replaced, from a place on. -/
def overwritten (bytes : Array UInt8) (place : Nat) (new : List UInt8) : Array UInt8 :=
  (bytes.toList.take place ++ new ++ bytes.toList.drop (place + new.length)).toArray

/-- Ends the innermost block and fills in its length: the words behind the one for the length,
as far as 32 bits can state their number. -/
def exitBlock (w : Writer) : Writer :=
  let w := w.put (Item.endBlock w.width)
  match w.scopes with
  | [] => w
  | scope :: outer =>
    let bytes := w.packer.bytes
    let words := min ((bytes.size - scope.lengthPlace - 4) / 4) (2 ^ 32 - 1)
    { packer := { w.packer with
        bytes := overwritten bytes scope.lengthPlace (Packer.wordBytes words) }
      width := scope.outerWidth
      scopes := outer }

/-- Adds a record spelled out in full. -/
def record (w : Writer) (code : Nat) (ops : List Nat) : Writer :=
  w.put ((Item.record code ops).fields w.width)

/-- Defines the abbreviation of the innermost block. -/
def defineBlob (w : Writer) (code : Nat) : Writer :=
  w.put ((Item.blobAbbreviation code).fields w.width)

/-- Adds a record that uses the abbreviation. -/
def blob (w : Writer) (bytes : List UInt8) : Writer :=
  w.put ((Item.blob bytes).fields w.width)

/-- The bytes of what has been written, filled up to whole words. -/
def finish (w : Writer) : List UInt8 := w.packer.finish

mutual

/-- Tells of an item with all that is in it. -/
def item (w : Writer) : Item → Writer
  | .record code ops => w.record code ops
  | .blobAbbreviation code => w.defineBlob code
  | .blob bytes => w.blob bytes
  | .block id width inner => (items (w.enterBlock id width) inner).exitBlock

@[inherit_doc item]
def items (w : Writer) : List Item → Writer
  | [] => w
  | i :: is => items (item w i) is

end

end Writer

/-- The bytes of a stream that is written call by call. -/
def write (magic : List UInt8) (items : List Item) : List UInt8 :=
  ((Writer.start magic).items items).finish

end CircuitQir.Bitstream
