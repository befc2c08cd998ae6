import CircuitQir.Bitcode.Layout
import CircuitQir.Bitstream.Item
/-!
# Writing bitcode

The items of a bitcode file: a block that names the producer, the module block, and the table of
function names. In the module block everything comes after what it refers to. All constants stand
in one table of the module, so the body of a function holds its calls and returns and, if any
block has a label, the labels.

Operands of a call count backwards from the number of the call itself. A callee that is no
function of the module is written as the call itself.
-/

namespace CircuitQir.Bitcode

open Ir Bitstream

/-! ## Attributes -/

/-- The bytes of a string and a zero. -/
def terminated (s : String) : List Nat := (Utf8.encode s).map UInt8.toNat ++ [0]

/-- The kind of an attribute, then its strings. -/
def attributeOps : Attribute → List Nat
  | .flag key => AttributeCode.string :: terminated key
  | .keyValue key value => AttributeCode.stringPair :: (terminated key ++ terminated value)

/-- The number under which records refer to an attribute group. -/
def storedGroupId (g : AttributeGroup) : Nat := g.id.toNat + 1

/-- Each group, and for each group the list that consists of it alone. -/
def attributeItems (groups : List AttributeGroup) : List Item :=
  if groups.isEmpty then []
  else
    [ .block BlockId.attributeGroups 3 (groups.map fun g =>
        .record AttributeCode.group
          (storedGroupId g :: functionPlace :: g.attributes.flatMap attributeOps)),
      .block BlockId.attributeLists 3 (groups.map fun g =>
        .record AttributeCode.list [storedGroupId g]) ]

/-- The number of the list for a group id: 0 for none, and for an id without a group. -/
def attributeList (groups : List AttributeGroup) (id : Option UInt32) : Nat :=
  match id.bind fun id => groups.findIdx? (·.id == id) with
  | some i => i + 1
  | none => 0

/-! ## Types and functions -/

/-- The record of a type. -/
def typeItem (l : Layout) : StoredType → Item
  | .void => .record TypeCode.void []
  | .int width => .record TypeCode.integer [width]
  | .double => .record TypeCode.double []
  | .ptr => .record TypeCode.pointer [0]
  | .function result params =>
    .record TypeCode.function
      (0 :: l.typeId (.ofResult result) :: params.map fun p => l.typeId (.ofValueType p))

def typesItem (l : Layout) : Item :=
  .block BlockId.types 4 (.record TypeCode.count [l.types.length] :: l.types.map (typeItem l))

/-- The records of functions whose names start at an offset of the string table. -/
def functionItems (l : Layout) (groups : List AttributeGroup) (offset : Nat) :
    List Callable → List Item
  | [] => []
  | c :: cs =>
    let size := (Utf8.encode c.name).length
    .record ModuleCode.function
        ([offset, size, l.typeId c.type, 0, c.isDeclaration.toNat, 0,
          attributeList groups c.attributes] ++ List.replicate 12 0) ::
      functionItems l groups (offset + size) cs

/-! ## Constants -/

/-- The record of a constant. -/
def constantItem (l : Layout) : Constant → Item
  | .int _ v => .record ConstantCode.integer [encodeSigned v]
  | .double d => .record ConstantCode.float [d.bits.toNat]
  | .null => .record ConstantCode.null []
  | .pointer p =>
    .record ConstantCode.cast
      [ConstantCode.integerToPointer, l.typeId (.int 64), l.constantId (.ofAddress p)]

/-- The records of constants when constants of the given type came last: a change of type is
announced. -/
def constantItems (l : Layout) (current : Option StoredType) : List Constant → List Item
  | [] => []
  | c :: cs =>
    let announcement :=
      if current = some c.type then [] else [.record ConstantCode.setType [l.typeId c.type]]
    announcement ++ constantItem l c :: constantItems l (some c.type) cs

def constantsItem (l : Layout) : List Item :=
  if l.constants.isEmpty then []
  else [.block BlockId.constants 4 (constantItems l none l.constants)]

/-! ## Module flags -/

/-- The keys of the flags, each once. -/
def flagKeys (flags : List ModuleFlag) : List String := (flags.map (·.key)).eraseDups

/-- The constants of the flags, each once. -/
def flagValues (flags : List ModuleFlag) : List Constant :=
  (flags.flatMap flagConstants).eraseDups

/-- The strings, then the constants, then a node for each flag, numbered in that order. A node
refers to its parts by their number plus one. -/
def flagItems (l : Layout) (flags : List ModuleFlag) : List Item :=
  if flags.isEmpty then []
  else
    let keys := flagKeys flags
    let values := flagValues flags
    let valueId (c : Constant) := keys.length + values.idxOf c
    let nodes := keys.length + values.length
    [ .block BlockId.metadata 3
        (keys.map (.text MetadataCode.string []) ++
          values.map (fun c => .record MetadataCode.value [l.typeId c.type, l.constantId c]) ++
          flags.map (fun f => .record MetadataCode.node
            [valueId (.ofBehavior f.behavior) + 1, keys.idxOf f.key + 1,
              valueId (.ofFlagValue f.value) + 1]) ++
          [.text MetadataCode.name [] flagListName,
            .record MetadataCode.namedNode ((List.range flags.length).map (nodes + ·))]) ]

/-! ## Function bodies -/

/-- The operands of a call with the given number. -/
def callOps (l : Layout) (next : Nat) (callee : String) (args : List Operand) : List Nat :=
  let back :=
    match l.calleeId? callee with
    | some id => next - id
    | none => 0
  [0, 2 ^ explicitTypeBit, l.typeId (l.callType callee args), back] ++
    args.map fun a => next - l.constantId (.ofOperand a)

/-- The records of instructions, the first of which has the given number. -/
def instructionItems (l : Layout) (next : Nat) : List Instruction → List Item
  | [] => []
  | .ret :: is => .record FunctionCode.ret [] :: instructionItems l next is
  | .call callee args :: is =>
    .record FunctionCode.call (callOps l next callee args) ::
      instructionItems l (if l.returnsValue callee then next + 1 else next) is

/-- The labels of blocks numbered from the given number on. Empty labels are left out. -/
def labelItems (index : Nat) : List Ir.Block → List Item
  | [] => []
  | b :: bs =>
    (if b.label.isEmpty then [] else [.text SymbolCode.block [index] b.label]) ++
      labelItems (index + 1) bs

/-- The block of a function body. -/
def bodyItem (l : Layout) (f : Function) : Item :=
  let labels := labelItems 0 f.blocks
  .block BlockId.function 4
    (.record FunctionCode.blockCount [f.blocks.length] ::
      (instructionItems l l.valueCount (f.blocks.flatMap (·.instructions)) ++
        if labels.isEmpty then [] else [.block BlockId.symbols 4 labels]))

/-! ## The whole file -/

def identificationItem : Item :=
  .block BlockId.identification 5
    [.text IdentificationCode.producer [] producer, .record IdentificationCode.epoch [0]]

def moduleItem (l : Layout) (m : Module) : Item :=
  .block BlockId.module 3
    ([.record ModuleCode.version [formatVersion]] ++ attributeItems m.attributeGroups ++
      [typesItem l, .text ModuleCode.sourceName [] m.sourceName] ++
      functionItems l m.attributeGroups 0 l.callables ++ constantsItem l ++
      flagItems l m.flags ++ m.functions.map (bodyItem l))

def stringTableItem (l : Layout) : Item :=
  .block BlockId.stringTable 3
    [.blobAbbreviation StringTableCode.blob, .blob l.stringTable]

/-- The items of a module's bitcode. -/
def items (m : Module) : List Item :=
  let l := Layout.ofModule m
  [identificationItem, moduleItem l m, stringTableItem l]

/-- The bitcode of a module. It depends on nothing but the module. -/
def encode (m : Module) : List UInt8 := Bitstream.encode magic (items m)

end CircuitQir.Bitcode
