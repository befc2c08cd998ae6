import CircuitQir.Bitstream.Packer
import CircuitQir.Bitstream.Vbr
import CircuitQir.Text.Utf8
/-!
# Writing a bitstream

A bitstream is written from a tree of `Item`s. Inside a block every item starts with an
abbreviation id of the width the block declares: 0 ends the block, 1 starts an inner one, 2
defines an abbreviation, 3 starts a record spelled out in full, and 4 is the abbreviation defined
first. A block states its length in words ahead of its body. The body starts on a word boundary,
so its own layout, and with it that length, does not depend on where the block stands.
-/

namespace CircuitQir.Bitstream

/-- What a writer puts into a stream or into a block. -/
inductive Item where
  /-- A record spelled out in full. -/
  | record (code : Nat) (ops : List Nat)
  /-- The definition of the one abbreviation that a block may have: the code, then a blob. -/
  | blobAbbreviation (code : Nat)
  /-- A record that uses the abbreviation. -/
  | blob (bytes : List UInt8)
  /-- An inner block, whose abbreviation ids take `width` bits. -/
  | block (id width : Nat) (items : List Item)
deriving Repr

/-- The width of abbreviation ids outside of all blocks. -/
def topLevelWidth : Nat := 2

namespace Item

/-- A record whose operands end with the bytes of a string. -/
def text (code : Nat) (ops : List Nat) (s : String) : Item :=
  record code (ops ++ (Utf8.encode s).map UInt8.toNat)

/-- How many words a body takes that starts on a word boundary. The length is stated in 32 bits,
all of them set where it does not fit. -/
def lengthWord (body : List Field) : Nat := min (Field.extent 0 body / 32) (2 ^ 32 - 1)

/-- What ends a block with abbreviation ids of the given width. -/
def endBlock (width : Nat) : List Field := [.number 0 width, .align]

mutual

/-- The fields of an item where abbreviation ids take `outer` bits. -/
def fields (outer : Nat) : Item → List Field
  | record code ops =>
    .number 3 outer :: (VbrWidth.six.fields code ++ VbrWidth.six.fields ops.length ++
      ops.flatMap VbrWidth.six.fields)
  | blobAbbreviation code =>
    .number 2 outer :: (VbrWidth.five.fields 2 ++ .number 1 1 :: VbrWidth.eight.fields code ++
      [.number 0 1, .number 5 3])
  | blob bytes =>
    .number 4 outer :: (VbrWidth.six.fields bytes.length ++ .align ::
      bytes.map (fun b => .number b.toNat 8) ++ [.align])
  | block id width items =>
    let body := listFields width items ++ endBlock width
    .number 1 outer :: (VbrWidth.eight.fields id ++ VbrWidth.four.fields width ++
      [.align, .number (lengthWord body) 32] ++ body)

/-- The fields of several items, one after the other. -/
def listFields (outer : Nat) : List Item → List Field
  | [] => []
  | i :: is => fields outer i ++ listFields outer is

end

end Item

/-- The fields of the four bytes that say what kind of stream this is. -/
def magicFields (magic : List UInt8) : List Field := magic.map fun b => .number b.toNat 8

/-- The bytes of a stream: its magic number, then its top-level blocks, filled up to whole
words. -/
def encode (magic : List UInt8) (items : List Item) : List UInt8 :=
  pack (magicFields magic ++ Item.listFields topLevelWidth items)

end CircuitQir.Bitstream
