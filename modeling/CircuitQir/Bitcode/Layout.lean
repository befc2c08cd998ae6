import CircuitQir.Bitcode.Format
import CircuitQir.Text.Utf8
/-!
# Numbering

Bitcode refers to types, functions and constants by number. A `Layout` lists them in the order of
their numbers: functions and constants share one numbering, functions first, and where the same
name, type or constant turns up again the first number stands. The lists hold no duplicates
except among functions, where two entries may have one name.

Constants are sorted by rank, so those of one type stand together and the 64-bit integers ahead of
the pointers cast from them. Nothing in the tables refers forward.
-/

namespace CircuitQir.Bitcode

open Ir

/-- A type as the type table stores it. -/
inductive StoredType where
  | void
  | int (width : Nat)
  | double
  | ptr
  | function (result : Option ValueType) (params : List ValueType)
deriving DecidableEq

/-- What a function record describes. -/
structure Callable where
  name : String
  result : Option ValueType
  params : List ValueType
  isDeclaration : Bool
  attributes : Option UInt32
deriving DecidableEq

namespace StoredType

def ofValueType : ValueType → StoredType
  | .i1 => .int 1
  | .i64 => .int 64
  | .double => .double
  | .ptr => .ptr

def ofResult : Option ValueType → StoredType
  | none => .void
  | some t => ofValueType t

/-- The types that every table starts with. -/
def basic : List StoredType := [.void, .int 1, .int 32, .int 64, .double, .ptr]

end StoredType

namespace Constant

def type : Constant → StoredType
  | .int width _ => .int width
  | .double _ => .double
  | .null => .ptr
  | .pointer _ => .ptr

/-- Where the constants of a type stand: integers by their width, then doubles, then pointers. -/
def rank : Constant → Nat × Nat
  | .int width _ => (0, width)
  | .double _ => (1, 0)
  | .null => (2, 0)
  | .pointer _ => (2, 0)

/-- Ranks are compared by their first parts, and by their second where these are equal. -/
def mayPrecede (c d : Constant) : Bool :=
  c.rank.1 < d.rank.1 || (c.rank.1 == d.rank.1 && c.rank.2 ≤ d.rank.2)

/-- Puts a constant ahead of the first that it may precede. -/
def insertByRank (c : Constant) : List Constant → List Constant
  | [] => [c]
  | d :: ds => if c.mayPrecede d then c :: d :: ds else d :: insertByRank c ds

/-- The constants in the order of their ranks. Those of one rank keep their order. -/
def sortByRank (cs : List Constant) : List Constant := cs.foldr insertByRank []

end Constant

namespace Callable

def ofDeclaration (d : Declaration) : Callable :=
  ⟨d.name, d.result, d.params, true, d.attributes⟩

def ofFunction (f : Function) : Callable := ⟨f.name, f.result, [], false, f.attributes⟩

def type (c : Callable) : StoredType := .function c.result c.params

/-- The declarations, then the functions of a module. -/
def all (m : Module) : List Callable :=
  m.declarations.map ofDeclaration ++ m.functions.map ofFunction

end Callable

/-- The type given to a callee that is no function of the module. -/
def undeclaredType (args : List Operand) : StoredType := .function none (args.map Operand.type)

/-- The constants that an operand needs. -/
def operandConstants : Operand → List Constant
  | .pointer p => [.ofAddress p, .pointer p]
  | o => [.ofOperand o]

/-- The constants that a module flag needs. -/
def flagConstants (f : ModuleFlag) : List Constant :=
  [.ofBehavior f.behavior, .ofFlagValue f.value]

/-- Everything that records refer to by number. -/
structure Layout where
  callables : List Callable
  types : List StoredType
  constants : List Constant

namespace Layout

/-- The layout of a module. -/
def ofModule (m : Module) : Layout :=
  let callables := Callable.all m
  let undeclared : Instruction → Option StoredType
    | .call callee args =>
      if callables.any (·.name == callee) then none else some (undeclaredType args)
    | .ret => none
  let constants := (m.flags.flatMap flagConstants ++
    m.instructions.flatMap fun i => i.args.flatMap operandConstants).eraseDups
  { callables
    types := (StoredType.basic ++ callables.map Callable.type ++
      m.instructions.filterMap undeclared).eraseDups
    constants := Constant.sortByRank constants }

def typeId (l : Layout) (t : StoredType) : Nat := l.types.idxOf t

/-- The number of the first function with a name. -/
def calleeId? (l : Layout) (name : String) : Option Nat :=
  l.callables.findIdx? (·.name == name)

def constantId (l : Layout) (c : Constant) : Nat := l.callables.length + l.constants.idxOf c

/-- How many numbers are given to functions and constants. -/
def valueCount (l : Layout) : Nat := l.callables.length + l.constants.length

/-- The function type named by a call. -/
def callType (l : Layout) (callee : String) (args : List Operand) : StoredType :=
  match l.callables.find? (·.name == callee) with
  | some c => c.type
  | none => undeclaredType args

/-- Whether a call of this name yields a value, and so takes up a number of its own. -/
def returnsValue (l : Layout) (callee : String) : Bool :=
  (l.callables.find? (·.name == callee)).any (·.result.isSome)

/-- All function names, one after the other. -/
def stringTable (l : Layout) : List UInt8 := l.callables.flatMap fun c => Utf8.encode c.name

end Layout

end CircuitQir.Bitcode
