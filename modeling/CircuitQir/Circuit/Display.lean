import CircuitQir.Circuit.Basic
import CircuitQir.Double.Text
import CircuitQir.Text.Numeral
/-!
# Circuits as listings

A listing names the circuit and gives each register and each operation a line.
-/

namespace CircuitQir

/-- Parts one after the other with commas between them. -/
def listing : List String → String
  | [] => ""
  | [s] => s
  | s :: rest => s ++ ", " ++ listing rest

namespace OperationKind

def display : OperationKind → String
  | unitary gate => gate.name
  | adjoint gate => gate.name ++ "dg"
  | rotation r => r.name
  | delay unit => "delay[" ++ unit.name ++ "]"
  | prepare state => "prepare[" ++ state.name ++ "]"
  | measure => "measure"
  | reset => "reset"
  | barrier => "barrier"
  | controlFlow s => s.name
  | opaqueGate name => name

end OperationKind

namespace Operation

/-- The kind with its parameters, the qubits, and the bit that is written. -/
def display (o : Operation) : String :=
  let params :=
    if o.params.isEmpty then "" else "(" ++ listing (o.params.map Double.text) ++ ")"
  let qubits :=
    if o.qubits.isEmpty then ""
    else " " ++ listing (o.qubits.map fun q => "q" ++ Numeral.ofNat q.toNat)
  let result :=
    match o.result with
    | some r => " -> " ++ r.register ++ "[" ++ Numeral.ofNat r.bit.toNat ++ "]"
    | none => ""
  o.kind.display ++ params ++ qubits ++ result

end Operation

namespace Register

def display (r : Register) : String :=
  "creg " ++ r.id ++ "[" ++ Numeral.ofNat r.size.toNat ++ "] @" ++ Numeral.ofNat r.offset.toNat

end Register

namespace Circuit

def display (c : Circuit) : String :=
  let lines :=
    ["circuit " ++ c.name ++ " (" ++ Numeral.ofNat c.qubitCount.toNat ++ " qubits)"] ++
      c.registers.map (fun r => "    " ++ r.display) ++
      c.operations.map (fun o => "    " ++ o.display)
  lines.foldr (fun line rest => line ++ "\n" ++ rest) ""

end Circuit

end CircuitQir
