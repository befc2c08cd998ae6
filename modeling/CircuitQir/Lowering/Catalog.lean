import CircuitQir.Circuit.Basic
import CircuitQir.Ir.Basic
import CircuitQir.Lowering.AttributeSet
/-!
# The catalog of intrinsics

Every operation that can be lowered becomes a call of one intrinsic function. Which one
depends on the kind of the operation and on how many controls, targets and parameters it has.
The intrinsic also says what is passed in which order.
-/

namespace CircuitQir

open Ir

/-- What is passed to an intrinsic, in order. -/
inductive ArgumentLayout where
  /-- The controls, then the targets. -/
  | qubits
  /-- The angle, then the targets. -/
  | angleThenQubits
  /-- The duration in microseconds or device cycles, then the target. -/
  | durationThenQubit
  /-- Whether the second state of the basis is meant, then the target. -/
  | flagThenQubit
  /-- The measured qubit, then the result it is written to. -/
  | qubitThenResult
  /-- Nothing that follows from the operation. -/
  | nothing
deriving DecidableEq, Repr

/-- A function that generated programs call. -/
structure Intrinsic where
  name : String
  params : List ValueType
  result : Option ValueType
  attributes : AttributeSet
  layout : ArgumentLayout
deriving DecidableEq

/-- How many qubits and parameters an operation has. -/
structure Arity where
  controls : Nat
  targets : Nat
  params : Nat
deriving DecidableEq, Repr

namespace Arity

def ofOperation (o : Operation) : Arity := ⟨o.controls.length, o.targets.length, o.params.length⟩

end Arity

namespace Intrinsic

/-! ## Gates -/

/-- The name of an instruction in one of its forms. -/
def instructionName (instruction form : String) : String :=
  "__quantum__qis__" ++ instruction ++ "__" ++ form

/-- A gate on so many qubits. -/
def gate (instruction form : String) (qubits : Nat) : Intrinsic :=
  ⟨instructionName instruction form, List.replicate qubits .ptr, none, .empty, .qubits⟩

def h : Intrinsic := gate "h" "body" 1
def x : Intrinsic := gate "x" "body" 1
def y : Intrinsic := gate "y" "body" 1
def z : Intrinsic := gate "z" "body" 1
def s : Intrinsic := gate "s" "body" 1
def sAdjoint : Intrinsic := gate "s" "adj" 1
def t : Intrinsic := gate "t" "body" 1
def tAdjoint : Intrinsic := gate "t" "adj" 1
def sx : Intrinsic := gate "sx" "body" 1
def sxAdjoint : Intrinsic := gate "sx" "adj" 1
def cx : Intrinsic := gate "cx" "body" 2
def cy : Intrinsic := gate "cy" "body" 2
def cz : Intrinsic := gate "cz" "body" 2
def swap : Intrinsic := gate "swap" "body" 2
def ccx : Intrinsic := gate "ccx" "body" 3

/-- A rotation of so many qubits. -/
def rotation (instruction : String) (qubits : Nat) : Intrinsic :=
  ⟨instructionName instruction "body", .double :: List.replicate qubits .ptr, none, .empty,
    .angleThenQubits⟩

def rx : Intrinsic := rotation "rx" 1
def ry : Intrinsic := rotation "ry" 1
def rz : Intrinsic := rotation "rz" 1
def rxx : Intrinsic := rotation "rxx" 2
def ryy : Intrinsic := rotation "ryy" 2
def rzz : Intrinsic := rotation "rzz" 2

/-! ## Other operations -/

def delay : Intrinsic :=
  ⟨instructionName "delay" "body", [.double, .ptr], none, .empty, .durationThenQubit⟩

def prepareZ : Intrinsic :=
  ⟨instructionName "prepare_z" "body", [.i1, .ptr], none, .empty, .flagThenQubit⟩

def prepareX : Intrinsic :=
  ⟨instructionName "prepare_x" "body", [.i1, .ptr], none, .empty, .flagThenQubit⟩

def measure : Intrinsic :=
  ⟨instructionName "mz" "body", [.ptr, .ptr], none, .irreversible, .qubitThenResult⟩

def reset : Intrinsic :=
  ⟨instructionName "reset" "body", [.ptr], none, .irreversible, .qubits⟩

def barrier : Intrinsic := ⟨instructionName "barrier" "body", [], none, .empty, .nothing⟩

/-! ## The runtime -/

/-- The name of a function of the runtime. -/
def runtimeName (function : String) : String := "__quantum__rt__" ++ function

def initialization : Intrinsic := ⟨runtimeName "initialize", [.ptr], none, .empty, .nothing⟩

/-- Announces how many results the next record consists of. -/
def recordArray : Intrinsic :=
  ⟨runtimeName "array_record_output", [.i64, .ptr], none, .empty, .nothing⟩

def recordResult : Intrinsic :=
  ⟨runtimeName "result_record_output", [.ptr, .ptr], none, .empty, .nothing⟩

/-! ## Looking up -/

/-- Every intrinsic that an operation can become. -/
def instructions : List Intrinsic :=
  [h, x, y, z, s, sAdjoint, t, tAdjoint, sx, sxAdjoint, cx, cy, cz, swap, ccx, rx, ry, rz, rxx,
    ryy, rzz, delay, prepareZ, prepareX, measure, reset, barrier]

/-- The intrinsics that every program may call whatever the operations are. -/
def runtime : List Intrinsic := [initialization, recordArray, recordResult]

/-- The intrinsic for operations of a kind and shape. There is none for control structures, for
gates of which only the name is known, and for known gates in a shape that no intrinsic takes. -/
def find? (kind : OperationKind) (arity : Arity) : Option Intrinsic :=
  match kind, arity with
  | .unitary .h, ⟨0, 1, 0⟩ => some h
  | .unitary .x, ⟨0, 1, 0⟩ => some x
  | .unitary .y, ⟨0, 1, 0⟩ => some y
  | .unitary .z, ⟨0, 1, 0⟩ => some z
  | .unitary .s, ⟨0, 1, 0⟩ => some s
  | .unitary .t, ⟨0, 1, 0⟩ => some t
  | .unitary .sx, ⟨0, 1, 0⟩ => some sx
  | .unitary .swap, ⟨0, 2, 0⟩ => some swap
  | .unitary .x, ⟨1, 1, 0⟩ => some cx
  | .unitary .y, ⟨1, 1, 0⟩ => some cy
  | .unitary .z, ⟨1, 1, 0⟩ => some cz
  | .unitary .x, ⟨2, 1, 0⟩ => some ccx
  | .adjoint .s, ⟨0, 1, 0⟩ => some sAdjoint
  | .adjoint .t, ⟨0, 1, 0⟩ => some tAdjoint
  | .adjoint .sx, ⟨0, 1, 0⟩ => some sxAdjoint
  | .rotation .rx, ⟨0, 1, 1⟩ => some rx
  | .rotation .ry, ⟨0, 1, 1⟩ => some ry
  | .rotation .rz, ⟨0, 1, 1⟩ => some rz
  | .rotation .rxx, ⟨0, 2, 1⟩ => some rxx
  | .rotation .ryy, ⟨0, 2, 1⟩ => some ryy
  | .rotation .rzz, ⟨0, 2, 1⟩ => some rzz
  | .delay _, ⟨0, 1, 1⟩ => some delay
  | .prepare .zero, ⟨0, 1, 0⟩ => some prepareZ
  | .prepare .one, ⟨0, 1, 0⟩ => some prepareZ
  | .prepare .plus, ⟨0, 1, 0⟩ => some prepareX
  | .prepare .minus, ⟨0, 1, 0⟩ => some prepareX
  | .measure, ⟨0, 1, 0⟩ => some measure
  | .reset, ⟨0, 1, 0⟩ => some reset
  | .barrier, ⟨0, _, 0⟩ => some barrier
  | _, _ => none

end Intrinsic

end CircuitQir
