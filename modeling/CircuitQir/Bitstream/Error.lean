/-!
# What can be wrong with a bitstream

Every problem but a missing magic number is reported with the position of a bit.
-/

namespace CircuitQir.Bitstream

/-- How the bits break the rules of the container. -/
inductive Flaw where
  /-- A variable-width number needs more than 64 bits. -/
  | integerOverflow
  /-- Something other than the start of a block stands at the top level. -/
  | outsideBlock (abbreviation : Nat)
  | nestedTooDeeply
  /-- The width of abbreviation ids a block declares is not from 2 to 32. -/
  | abbreviationWidth
  /-- A block ends elsewhere than its declared length says. -/
  | blockLength (id : Nat)
  /-- An abbreviation for other blocks comes before the record naming the block. -/
  | noTargetBlock
  | operandTooWide
  /-- A variable-width operand of one bit has no room for a value. -/
  | operandTooNarrow
  | unknownEncoding
  | arrayElement
  | blobNotLast
  | emptyAbbreviation
  /-- An array or blob stands where the code of the record should be. -/
  | aggregateCode
deriving DecidableEq, Repr

/-- Why a bitstream cannot be read. -/
inductive Error where
  | badMagic
  /-- The stream ends before what is read at this bit is complete. -/
  | endOfInput (bit : Nat)
  | unknownAbbreviation (id bit : Nat)
  | malformed (bit : Nat) (flaw : Flaw)
deriving DecidableEq, Repr

namespace Flaw

def message : Flaw → String
  | integerOverflow => "variable-width integer overflows 64 bits"
  | outsideBlock n => s!"abbreviation {n} outside of a block"
  | nestedTooDeeply => "blocks are nested too deeply"
  | abbreviationWidth => "invalid abbreviation width"
  | blockLength id => s!"block {id} does not match its declared length"
  | noTargetBlock => "block info abbreviation before SETBID"
  | operandTooWide => "abbreviation operand is too wide"
  | operandTooNarrow => "variable-width operand of width 1"
  | unknownEncoding => "unknown abbreviation operand encoding"
  | arrayElement => "array must be followed by one element operand"
  | blobNotLast => "blob must be the last operand"
  | emptyAbbreviation => "empty abbreviation"
  | aggregateCode => "aggregate operand in scalar position"

end Flaw

namespace Error

def message : Error → String
  | badMagic => "input is not LLVM bitcode"
  | endOfInput bit => s!"unexpected end of bitcode at bit {bit}"
  | unknownAbbreviation id bit => s!"unknown abbreviation {id} at bit {bit}"
  | malformed bit flaw => s!"malformed bitstream at bit {bit}: {flaw.message}"

/-- The name under which a problem is catalogued. -/
def code : Error → String
  | badMagic => "Qsc.Llvm.BadMagic"
  | endOfInput _ => "Qsc.Llvm.UnexpectedEof"
  | unknownAbbreviation _ _ => "Qsc.Llvm.UnknownAbbrev"
  | malformed _ _ => "Qsc.Llvm.Malformed"

end Error

end CircuitQir.Bitstream
