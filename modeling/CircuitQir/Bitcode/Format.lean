import CircuitQir.Ir.Basic
/-!
# The numbers of the bitcode format

Which number stands for which kind of block, record and constant in the part of the format that
the library writes and reads: function names in a string table, pointers without a pointee type.
-/

namespace CircuitQir.Bitcode

/-- The bytes every bitcode file starts with. -/
def magic : List UInt8 := [0x42, 0x43, 0xc0, 0xde]

/-- The name a file gives for what wrote it. -/
def producer : String := "qsc_llvm"

/-- The version of the module format. -/
def formatVersion : Nat := 2

/-- The name of the metadata list that holds the module flags. -/
def flagListName : String := "llvm.module.flags"

/-- The place of attributes that belong to a function as a whole. -/
def functionPlace : Nat := 0xffffffff

/-! ## Kinds of blocks -/

namespace BlockId

@[match_pattern] abbrev module : Nat := 8
@[match_pattern] abbrev attributeLists : Nat := 9
@[match_pattern] abbrev attributeGroups : Nat := 10
@[match_pattern] abbrev constants : Nat := 11
@[match_pattern] abbrev function : Nat := 12
@[match_pattern] abbrev identification : Nat := 13
@[match_pattern] abbrev symbols : Nat := 14
@[match_pattern] abbrev metadata : Nat := 15
@[match_pattern] abbrev types : Nat := 17
@[match_pattern] abbrev stringTable : Nat := 23

end BlockId

/-! ## Kinds of records, by the block they stand in -/

namespace IdentificationCode
abbrev producer : Nat := 1
abbrev epoch : Nat := 2
end IdentificationCode

namespace ModuleCode
@[match_pattern] abbrev version : Nat := 1
@[match_pattern] abbrev function : Nat := 8
@[match_pattern] abbrev sourceName : Nat := 16
end ModuleCode

namespace AttributeCode
abbrev list : Nat := 2
abbrev group : Nat := 3
/-- An attribute that is a bare string. -/
@[match_pattern] abbrev string : Nat := 3
/-- An attribute that is a pair of strings. -/
@[match_pattern] abbrev stringPair : Nat := 4
end AttributeCode

namespace TypeCode
@[match_pattern] abbrev count : Nat := 1
@[match_pattern] abbrev void : Nat := 2
@[match_pattern] abbrev double : Nat := 4
@[match_pattern] abbrev integer : Nat := 7
@[match_pattern] abbrev function : Nat := 21
@[match_pattern] abbrev pointer : Nat := 25
end TypeCode

namespace ConstantCode
@[match_pattern] abbrev setType : Nat := 1
@[match_pattern] abbrev null : Nat := 2
@[match_pattern] abbrev integer : Nat := 4
@[match_pattern] abbrev float : Nat := 6
@[match_pattern] abbrev cast : Nat := 11
/-- The cast from a number to a pointer. -/
@[match_pattern] abbrev integerToPointer : Nat := 10
end ConstantCode

namespace MetadataCode
@[match_pattern] abbrev string : Nat := 1
@[match_pattern] abbrev value : Nat := 2
@[match_pattern] abbrev node : Nat := 3
@[match_pattern] abbrev name : Nat := 4
@[match_pattern] abbrev namedNode : Nat := 10
end MetadataCode

namespace FunctionCode
@[match_pattern] abbrev blockCount : Nat := 1
@[match_pattern] abbrev ret : Nat := 10
@[match_pattern] abbrev call : Nat := 34
end FunctionCode

namespace SymbolCode
abbrev block : Nat := 2
end SymbolCode

namespace StringTableCode
abbrev blob : Nat := 1
end StringTableCode

/-- The bit in the flags of a call that says its function type follows. -/
def explicitTypeBit : Nat := 15

/-- The bit in the flags of a call that says arithmetic flags follow. -/
def arithmeticFlagsBit : Nat := 17

/-! ## Constants -/

/-- A constant as the constant table stores it. -/
inductive Constant where
  | int (width : Nat) (value : Int)
  | double (value : Double)
  | null
  /-- A 64-bit number cast to a pointer. -/
  | pointer (address : UInt64)
deriving DecidableEq

/-- A signed number with its sign moved to the lowest bit. The least 64-bit number, whose
absolute value has no room beside the sign, is written as minus zero. -/
def encodeSigned (v : Int) : Nat :=
  if 0 ≤ v then 2 * v.toNat
  else if v = -2 ^ 63 then 1
  else 2 * v.natAbs + 1

/-- The signed number with this encoding. -/
def decodeSigned (n : Nat) : Int :=
  if n % 2 = 0 then (n / 2 : Nat)
  else if n / 2 = 0 then -2 ^ 63
  else -(n / 2 : Nat)

theorem decodeSigned_encodeSigned {v : Int} (h : -2 ^ 63 ≤ v) :
    decodeSigned (encodeSigned v) = v := by
  unfold encodeSigned decodeSigned
  split
  · simp; omega
  · split
    · subst v; decide
    · split
      · omega
      · split <;> omega

namespace Constant

/-- An `i1` is stored sign-extended, so true is `-1`. -/
def ofBool (b : Bool) : Constant := .int 1 (if b then -1 else 0)

def ofOperand : Ir.Operand → Constant
  | .bool b => ofBool b
  | .int v => .int 64 v.toInt
  | .double d => .double d
  | .null => .null
  | .pointer p => .pointer p

/-- The operand a constant is, unless it is an integer of another width than 1 or 64. -/
def operand? : Constant → Option Ir.Operand
  | .int 1 v => some (.bool (v != 0))
  | .int 64 v => some (.int (Int64.ofInt v))
  | .int _ _ => none
  | .double d => some (.double d)
  | .null => some .null
  | .pointer p => some (.pointer p)

/-- The integer constant that a pointer with this address is cast from. -/
def ofAddress (p : UInt64) : Constant := .int 64 p.toInt64.toInt

def ofFlagValue : Ir.FlagValue → Constant
  | .i32 v => .int 32 v.toInt
  | .bool b => ofBool b

/-- The merge behavior of a module flag as a constant. -/
def ofBehavior (behavior : UInt32) : Constant := .int 32 behavior.toNat

theorem operand?_ofOperand (o : Ir.Operand) : (ofOperand o).operand? = some o := by
  cases o with
  | bool b => cases b <;> rfl
  | int v => simp [ofOperand, operand?, Int64.ofInt_toInt]
  | double d => rfl
  | null => rfl
  | pointer p => rfl

end Constant

end CircuitQir.Bitcode
