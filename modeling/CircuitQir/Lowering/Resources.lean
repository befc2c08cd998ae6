import CircuitQir.Circuit.Basic
import CircuitQir.Lowering.Error
/-!
# The resources of a circuit

Accounting checks that the registers fill the results from zero on without gaps, and that every
operation uses different qubits that exist and writes a result exactly if it is a measurement.
Then the circuit needs the results of all its registers, and as many qubits as it declares, or
more if its operations name more.
-/

namespace CircuitQir

/-- How many qubits and results a program needs. -/
structure Resources where
  qubits : UInt32
  results : UInt32
deriving DecidableEq, Repr

namespace Resources

/-- Checks registers that follow others with the given ids, which fill the results below
`expected`, and gives the number of results of all of them. -/
def checkRegisters (seen : List String) (expected : UInt32) : List Register → Except Error UInt32
  | [] => .ok expected
  | r :: rs =>
    if seen.contains r.id then .error (.layout r.id .duplicate)
    else if r.offset < expected then .error (.layout r.id (.overlap r.offset expected))
    else if expected < r.offset then .error (.layout r.id (.gap r.offset expected))
    else if expected.toNat + r.size.toNat < 2 ^ 32 then
      checkRegisters (r.id :: seen) (expected + r.size) rs
    else .error (.layout r.id .tooLarge)

/-- Checks qubits of an operation that follow the given others. -/
def checkQubits (qubitCount : UInt32) (seen : List UInt32) :
    List UInt32 → Except OperationFault Unit
  | [] => .ok ()
  | q :: qs =>
    if qubitCount ≤ q then .error (.reference (.qubit q qubitCount))
    else if seen.contains q then .error (.reference (.repeatedQubit q))
    else checkQubits qubitCount (q :: seen) qs

/-- Checks the result that an operation writes. -/
def checkResult (c : Circuit) (o : Operation) : Except OperationFault Unit :=
  match o.kind.isMeasurement, o.result with
  | false, none => .ok ()
  | false, some _ => .error (.reference .unexpectedResult)
  | true, none => .error (.reference .missingResult)
  | true, some target =>
    match c.register? target.register with
    | none => .error (.reference (.unknownRegister target.register))
    | some r =>
      if target.bit < r.size then .ok ()
      else .error (.reference (.bit r.id target.bit r.size))

/-- Checks an operation of a circuit. -/
def checkOperation (c : Circuit) (o : Operation) : Except OperationFault Unit := do
  checkQubits c.qubitCount [] o.qubits
  checkResult c o

/-- Checks operations, the first of which has the given position. -/
def checkOperations (c : Circuit) (position : Nat) : List Operation → Except Error Unit
  | [] => .ok ()
  | o :: os =>
    match checkOperation c o with
    | .ok () => checkOperations c (position + 1) os
    | .error fault => .error (.operation position fault)

/-- How many qubits there have to be for some to exist, when there are at least `count`. -/
def qubitsNeeded (count : UInt32) (qubits : List UInt32) : UInt32 :=
  qubits.foldl (fun n q => max n (q + 1)) count

/-- The resources of a circuit. The registers are checked ahead of the operations. -/
def account (c : Circuit) : Except Error Resources := do
  let results ← checkRegisters [] 0 c.registers
  checkOperations c 0 c.operations
  return ⟨qubitsNeeded c.qubitCount (c.operations.flatMap Operation.qubits), results⟩

end Resources

end CircuitQir
