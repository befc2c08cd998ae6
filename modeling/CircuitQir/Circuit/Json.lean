import CircuitQir.Circuit.Basic
import CircuitQir.Json.Decoding
/-!
# Circuits as JSON documents

The document of a circuit lists its fields in a fixed order. Of an operation the empty lists and
the missing result are left out. A document may leave out whatever has a default, and may hold
fields that mean nothing here.
-/

namespace CircuitQir

open Json (Decoder Field Shape)

/-! ## Writing -/

namespace OperationKind

/-- A variant is its name, or its name as the key of its value. -/
def toJson : OperationKind → Json
  | unitary gate => .object [("unitary", .string gate.name)]
  | adjoint gate => .object [("adjoint", .string gate.name)]
  | rotation r => .object [("rotation", .string r.name)]
  | delay unit => .object [("delay", .string unit.name)]
  | prepare state => .object [("prepare", .string state.name)]
  | measure => .string "measure"
  | reset => .string "reset"
  | barrier => .string "barrier"
  | controlFlow s => .object [("controlFlow", .string s.name)]
  | opaqueGate name => .object [("opaque", .string name)]

end OperationKind

/-- A number of 32 bits. -/
def jsonOfUInt32 (n : UInt32) : Json := .natural n.toNat

/-- A member that is left out where its list is empty. -/
def nonemptyMember (key : String) (items : List Json) : List (String × Json) :=
  if items.isEmpty then [] else [(key, .array items)]

namespace ResultTarget

def toJson (r : ResultTarget) : Json :=
  .object [("register", .string r.register), ("bit", jsonOfUInt32 r.bit)]

end ResultTarget

namespace Operation

def toJson (o : Operation) : Json :=
  .object
    ([("kind", o.kind.toJson)] ++ nonemptyMember "targets" (o.targets.map jsonOfUInt32) ++
      nonemptyMember "controls" (o.controls.map jsonOfUInt32) ++
      nonemptyMember "params" (o.params.map Json.double) ++
      match o.result with
      | some r => [("result", r.toJson)]
      | none => [])

end Operation

namespace Register

def toJson (r : Register) : Json :=
  .object
    [("id", .string r.id), ("size", jsonOfUInt32 r.size), ("offset", jsonOfUInt32 r.offset)]

end Register

namespace Circuit

def toJson (c : Circuit) : Json :=
  .object
    [("name", .string c.name), ("numQubits", jsonOfUInt32 c.qubitCount),
      ("operations", .array (c.operations.map Operation.toJson)),
      ("registers", .array (c.registers.map Register.toJson))]

/-- The document of a circuit. -/
def document (c : Circuit) : String := c.toJson.pretty

end Circuit

/-! ## Reading -/

namespace Gate
def decoder : Decoder Gate := Decoder.named all name
end Gate

namespace Rotation
def decoder : Decoder Rotation := Decoder.named all name
end Rotation

namespace TimeUnit
def decoder : Decoder TimeUnit := Decoder.named all name
end TimeUnit

namespace BasisState
def decoder : Decoder BasisState := Decoder.named all name
end BasisState

namespace ControlFlow
def decoder : Decoder ControlFlow := Decoder.named all name
end ControlFlow

namespace OperationKind

def names : List String :=
  ["unitary", "adjoint", "rotation", "delay", "prepare", "measure", "reset", "barrier",
    "controlFlow", "opaque"]

def decoder : Decoder OperationKind :=
  Decoder.variant names fun name value =>
    match name with
    | "unitary" => return unitary (← Decoder.oneValue Gate.decoder value)
    | "adjoint" => return adjoint (← Decoder.oneValue Gate.decoder value)
    | "rotation" => return rotation (← Decoder.oneValue Rotation.decoder value)
    | "delay" => return delay (← Decoder.oneValue TimeUnit.decoder value)
    | "prepare" => return prepare (← Decoder.oneValue BasisState.decoder value)
    | "measure" => do Decoder.noValue value; return measure
    | "reset" => do Decoder.noValue value; return reset
    | "barrier" => do Decoder.noValue value; return barrier
    | "controlFlow" => return controlFlow (← Decoder.oneValue ControlFlow.decoder value)
    | _ => return opaqueGate (← Decoder.oneValue Decoder.string value)

end OperationKind

namespace ResultTarget

def shape : Shape :=
  ⟨"ResultTarget", [.mandatory "register" Decoder.string, .mandatory "bit" Decoder.uint32]⟩

def decoder : Decoder ResultTarget := fun t => do
  let ms ← shape.members t
  return ⟨← ms.get "register" Decoder.string, ← ms.get "bit" Decoder.uint32⟩

end ResultTarget

namespace Operation

def numbers : Decoder (List UInt32) := Decoder.list Decoder.uint32

def doubles : Decoder (List Double) := Decoder.list Decoder.double

def shape : Shape :=
  ⟨"Operation",
    [.mandatory "kind" OperationKind.decoder, .optional "targets" numbers,
      .optional "controls" numbers, .optional "params" doubles,
      .optional "result" (Decoder.nullable ResultTarget.decoder)]⟩

def decoder : Decoder Operation := fun t => do
  let ms ← shape.members t
  return {
    kind := ← ms.get "kind" OperationKind.decoder
    targets := ← ms.getD "targets" numbers []
    controls := ← ms.getD "controls" numbers []
    params := ← ms.getD "params" doubles []
    result := ← ms.getD "result" (Decoder.nullable ResultTarget.decoder) none }

end Operation

namespace Register

def shape : Shape :=
  ⟨"ClassicalRegister",
    [.mandatory "id" Decoder.string, .mandatory "size" Decoder.uint32,
      .mandatory "offset" Decoder.uint32]⟩

def decoder : Decoder Register := fun t => do
  let ms ← shape.members t
  return ⟨← ms.get "id" Decoder.string, ← ms.get "size" Decoder.uint32,
    ← ms.get "offset" Decoder.uint32⟩

end Register

namespace Circuit

def shape : Shape :=
  ⟨"NormalizedCircuit",
    [.optional "name" Decoder.string, .mandatory "numQubits" Decoder.uint32,
      .optional "operations" (Decoder.list Operation.decoder),
      .optional "registers" (Decoder.list Register.decoder)]⟩

def decoder : Decoder Circuit := fun t => do
  let ms ← shape.members t
  return {
    name := ← ms.getD "name" Decoder.string ""
    qubitCount := ← ms.get "numQubits" Decoder.uint32
    operations := ← ms.getD "operations" (Decoder.list Operation.decoder) []
    registers := ← ms.getD "registers" (Decoder.list Register.decoder) [] }

/-- The circuit that a document describes. -/
def ofDocument (text : String) : Except Json.Problem Circuit := Json.decode decoder text

end Circuit

end CircuitQir
