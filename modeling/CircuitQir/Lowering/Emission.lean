import CircuitQir.Circuit.Display
import CircuitQir.Lowering.Duration
import CircuitQir.Lowering.EntryBlock
import CircuitQir.Lowering.Options
/-!
# From operations to calls

Each operation becomes one call, in the order of the circuit; only barriers may be left out. The
first operation that cannot be lowered ends the emission, and the calls of the operations
before it have been added by then.
-/

namespace CircuitQir

open Ir

/-- A qubit or result as an operand. -/
def indexOperand (index : UInt32) : Operand := .pointer index.toUInt64

namespace Operation

/-- The fault of an operation that no intrinsic stands for. -/
def unsupported (o : Operation) : OperationFault := .unsupported o.kind.display

/-- The result that an operation writes, as an operand. -/
def resultOperand (registers : List Register) (o : Operation) : Except OperationFault Operand :=
  match o.result with
  | none => .error (.reference .missingResult)
  | some target =>
    match registers.find? (·.id = target.register) with
    | some r => .ok (indexOperand (r.globalIndex target.bit))
    | none => .error (.reference (.unknownRegister target.register))

/-- What an operation passes to an intrinsic with a layout. -/
def arguments (registers : List Register) (o : Operation) (layout : ArgumentLayout) :
    Except OperationFault (List Operand) :=
  let targets := o.targets.map indexOperand
  match layout with
  | .qubits => .ok (o.qubits.map indexOperand)
  | .angleThenQubits =>
    match o.params with
    | angle :: _ => .ok (.double angle :: targets)
    | [] => .error o.unsupported
  | .durationThenQubit =>
    match o.kind, o.params with
    | .delay unit, duration :: _ =>
      let value := unit.toMicroseconds duration
      if value.isFinite then .ok (.double value :: targets) else .error (.parameter value)
    | _, _ => .error o.unsupported
  | .flagThenQubit =>
    match o.kind with
    | .prepare state => .ok (.bool state.isInverted :: targets)
    | _ => .error o.unsupported
  | .qubitThenResult => do
    let result ← o.resultOperand registers
    return targets ++ [result]
  | .nothing => .ok []

/-- The call that an operation becomes. -/
def callOf (registers : List Register) (o : Operation) :
    Except OperationFault (Intrinsic × List Operand) :=
  match Intrinsic.find? o.kind (.ofOperation o) with
  | none => .error o.unsupported
  | some i =>
    match o.params.find? (!·.isFinite) with
    | some value => .error (.parameter value)
    | none => do return (i, ← o.arguments registers i.layout)

/-- Whether an operation becomes no call. -/
def isOmitted (options : Options) (o : Operation) : Bool :=
  o.kind = .barrier && !options.emitBarriers

end Operation

namespace EntryBlock

/-- Adds the calls of operations, the first of which has the given position. Where an operation
cannot be lowered, the result is the block without it and the error. -/
def emitFrom (registers : List Register) (options : Options) (position : Nat) (b : EntryBlock) :
    List Operation → EntryBlock × Option Error
  | [] => (b, none)
  | o :: os =>
    if o.isOmitted options then b.emitFrom registers options (position + 1) os
    else
      match o.callOf registers with
      | .ok (i, args) => (b.call i args).emitFrom registers options (position + 1) os
      | .error fault => (b, some (.operation position fault))

/-- Adds the calls of all operations of a circuit. -/
def emit (b : EntryBlock) (c : Circuit) (options : Options) : EntryBlock × Option Error :=
  b.emitFrom c.registers options 0 c.operations

/-! ## Recording -/

/-- Adds the calls that record a register: its size, then each of its bits. -/
def recordRegister (b : EntryBlock) (r : Register) : EntryBlock :=
  (List.range r.size.toNat).foldl
    (fun b bit =>
      b.call Intrinsic.recordResult [indexOperand (r.globalIndex (UInt32.ofNat bit)), .null])
    (b.call Intrinsic.recordArray [.int (Int64.ofNat r.size.toNat), .null])

/-- Adds the calls that record registers, in order. -/
def recordOutput (b : EntryBlock) (registers : List Register) : EntryBlock :=
  registers.foldl recordRegister b

end EntryBlock

end CircuitQir
