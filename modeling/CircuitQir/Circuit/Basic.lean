import CircuitQir.Double.Basic
/-!
# Circuits

A circuit acts on qubits numbered from zero. Its operations stand in program order, its classical
registers in order of declaration. A register owns the results from its offset on, so a bit is
addressed by the register and its place in it, or globally by one number.

A circuit need not be sound: an operation may name qubits or registers that do not exist.
-/

namespace CircuitQir

/-- A fixed unitary. -/
inductive Gate where
  | h | x | y | z | s | t | sx | swap
deriving DecidableEq, Repr

/-- A unitary with an angle. -/
inductive Rotation where
  | rx | ry | rz | rxx | ryy | rzz
deriving DecidableEq, Repr

/-- The unit of a duration. The last one is a cycle of the device. -/
inductive TimeUnit where
  | s | ms | us | ns | ps | dt
deriving DecidableEq, Repr

/-- A state that a qubit can be prepared in. -/
inductive BasisState where
  | zero | one | plus | minus
deriving DecidableEq, Repr

/-- A control structure. -/
inductive ControlFlow where
  | ifElse | whileLoop | forLoop | switchCase | breakLoop | continueLoop
deriving DecidableEq, Repr

/-- What an operation does. -/
inductive OperationKind where
  /-- A gate, controlled by the control qubits if there are any. -/
  | unitary (gate : Gate)
  /-- The inverse of a gate. -/
  | adjoint (gate : Gate)
  | rotation (rotation : Rotation)
  /-- An idle period, whose length is the parameter. -/
  | delay (unit : TimeUnit)
  | prepare (state : BasisState)
  | measure
  | reset
  | barrier
  | controlFlow (flow : ControlFlow)
  /-- A gate about which only the name is known. -/
  | opaqueGate (name : String)
deriving DecidableEq, Repr

/-- The classical bit that a measurement writes. -/
structure ResultTarget where
  register : String
  bit : UInt32
deriving DecidableEq, Repr

structure Operation where
  kind : OperationKind
  targets : List UInt32
  controls : List UInt32
  params : List Double
  result : Option ResultTarget
deriving DecidableEq, Repr

/-- A classical register. -/
structure Register where
  id : String
  size : UInt32
  /-- The global number of its first bit. -/
  offset : UInt32
deriving DecidableEq, Repr

structure Circuit where
  name : String
  qubitCount : UInt32
  operations : List Operation
  registers : List Register
deriving DecidableEq, Repr

namespace Gate

def all : List Gate := [h, x, y, z, s, t, sx, swap]

def name : Gate → String
  | h => "h"
  | x => "x"
  | y => "y"
  | z => "z"
  | s => "s"
  | t => "t"
  | sx => "sx"
  | swap => "swap"

end Gate

namespace Rotation

def all : List Rotation := [rx, ry, rz, rxx, ryy, rzz]

def name : Rotation → String
  | rx => "rx"
  | ry => "ry"
  | rz => "rz"
  | rxx => "rxx"
  | ryy => "ryy"
  | rzz => "rzz"

end Rotation

namespace TimeUnit

def all : List TimeUnit := [s, ms, us, ns, ps, dt]

def name : TimeUnit → String
  | s => "s"
  | ms => "ms"
  | us => "us"
  | ns => "ns"
  | ps => "ps"
  | dt => "dt"

end TimeUnit

namespace BasisState

def all : List BasisState := [zero, one, plus, minus]

def name : BasisState → String
  | zero => "0"
  | one => "1"
  | plus => "+"
  | minus => "-"

/-- Whether the state is the second one of its basis. -/
def isInverted : BasisState → Bool
  | zero | plus => false
  | one | minus => true

end BasisState

namespace ControlFlow

def all : List ControlFlow :=
  [ifElse, whileLoop, forLoop, switchCase, breakLoop, continueLoop]

def name : ControlFlow → String
  | ifElse => "if_else"
  | whileLoop => "while_loop"
  | forLoop => "for_loop"
  | switchCase => "switch_case"
  | breakLoop => "break_loop"
  | continueLoop => "continue_loop"

end ControlFlow

namespace OperationKind

def isMeasurement (k : OperationKind) : Bool := k = measure

end OperationKind

namespace Operation

/-- All qubits of an operation, the controls first. -/
def qubits (o : Operation) : List UInt32 := o.controls ++ o.targets

end Operation

namespace Register

/-- The global number of a bit of the register. -/
def globalIndex (r : Register) (bit : UInt32) : UInt32 := r.offset + bit

end Register

namespace Circuit

/-- The first register with an id. -/
def register? (c : Circuit) (id : String) : Option Register := c.registers.find? (·.id = id)

end Circuit

end CircuitQir
