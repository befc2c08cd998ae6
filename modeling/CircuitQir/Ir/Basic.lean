import CircuitQir.Double.Basic
/-!
# Programs in intermediate form

A `Module` declares external functions, defines functions made of labelled blocks of calls and
returns, and carries groups of attributes and flags. Nothing here requires a module to be closed:
a call may name a function that is not declared, and an attribute id may belong to no group. The
readers and the verifier say which modules they accept.
-/

namespace CircuitQir.Ir

/-- The type of an operand or of a result. -/
inductive ValueType where
  | i1
  | i64
  | double
  | ptr
deriving DecidableEq, Repr

/-- An argument of a call. All operands are constants. -/
inductive Operand where
  | bool (value : Bool)
  | int (value : Int64)
  | double (value : Double)
  | null
  /-- A number used as a pointer, the static form of qubit and result references. -/
  | pointer (address : UInt64)
deriving DecidableEq

inductive Instruction where
  | call (callee : String) (args : List Operand)
  | ret
deriving DecidableEq

structure Block where
  label : String
  instructions : List Instruction
deriving DecidableEq

/-- A function of this module. It takes no arguments. -/
structure Function where
  name : String
  result : Option ValueType
  /-- The id of its attribute group. -/
  attributes : Option UInt32
  blocks : List Block
deriving DecidableEq

/-- A function defined elsewhere. -/
structure Declaration where
  name : String
  params : List ValueType
  result : Option ValueType
  /-- The id of its attribute group. -/
  attributes : Option UInt32
deriving DecidableEq

inductive Attribute where
  | flag (key : String)
  | keyValue (key value : String)
deriving DecidableEq

structure AttributeGroup where
  id : UInt32
  attributes : List Attribute
deriving DecidableEq

inductive FlagValue where
  | i32 (value : Int32)
  | bool (value : Bool)
deriving DecidableEq

/-- An entry of the module's flag list. The behavior tells a linker how to merge it. -/
structure ModuleFlag where
  behavior : UInt32
  key : String
  value : FlagValue
deriving DecidableEq

structure Module where
  sourceName : String
  declarations : List Declaration
  functions : List Function
  attributeGroups : List AttributeGroup
  flags : List ModuleFlag
deriving DecidableEq

/-! ## Views -/

namespace Operand

def type : Operand → ValueType
  | bool _ => .i1
  | int _ => .i64
  | double _ => .double
  | null => .ptr
  | pointer _ => .ptr

end Operand

namespace Instruction

/-- Whether the instruction ends its block. -/
def isTerminator : Instruction → Bool
  | ret => true
  | call _ _ => false

def callee? : Instruction → Option String
  | call callee _ => some callee
  | ret => none

def args : Instruction → List Operand
  | call _ args => args
  | ret => []

end Instruction

namespace Attribute

def key : Attribute → String
  | flag key => key
  | keyValue key _ => key

end Attribute

namespace AttributeGroup

/-- Whether the group has a bare attribute of this name. -/
def hasFlag (g : AttributeGroup) (key : String) : Bool := g.attributes.contains (.flag key)

/-- The value of the first attribute with this key that has one. -/
def value? (g : AttributeGroup) (key : String) : Option String :=
  g.attributes.findSome? fun
    | .keyValue k v => if k = key then some v else none
    | .flag _ => none

end AttributeGroup

namespace Module

def empty : Module := ⟨"", [], [], [], []⟩

/-- The first declaration of a name. -/
def declaration? (m : Module) (name : String) : Option Declaration :=
  m.declarations.find? (·.name = name)

/-- The first attribute group with an id. -/
def attributeGroup? (m : Module) (id : UInt32) : Option AttributeGroup :=
  m.attributeGroups.find? (·.id = id)

/-- The attribute group a function refers to. -/
def groupOf? (m : Module) (f : Function) : Option AttributeGroup :=
  f.attributes.bind m.attributeGroup?

/-- The first function whose attribute group marks it as the entry point. -/
def entryPoint? (m : Module) : Option Function :=
  m.functions.find? fun f => (m.groupOf? f).any (·.hasFlag "entry_point")

/-- All instructions of all functions, in order. -/
def instructions (m : Module) : List Instruction :=
  m.functions.flatMap fun f => f.blocks.flatMap (·.instructions)

end Module

end CircuitQir.Ir
