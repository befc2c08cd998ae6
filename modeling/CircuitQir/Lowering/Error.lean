import CircuitQir.Assembly.Parser
import CircuitQir.Bitcode.Error
import CircuitQir.Double.Text
import CircuitQir.Text.Quoted
/-!
# Why a circuit is not lowered

The registers of the circuit may not fit together, an operation may not be sound or not be known,
and the checks on the program that comes out may fail.
-/

namespace CircuitQir

/-- What an operation gets wrong about the qubits or bits it refers to. -/
inductive Reference where
  | qubit (qubit qubitCount : UInt32)
  | repeatedQubit (qubit : UInt32)
  | unknownRegister (register : String)
  | bit (register : String) (bit size : UInt32)
  | missingResult
  | unexpectedResult
deriving DecidableEq, Repr

/-- How a register fails to follow the registers before it. -/
inductive LayoutIssue where
  | duplicate
  | overlap (offset expected : UInt32)
  | gap (offset expected : UInt32)
  | tooLarge
deriving DecidableEq, Repr

/-- Why an operation is not lowered. -/
inductive OperationFault where
  | unsupported (name : String)
  | reference (r : Reference)
  /-- A parameter is infinite or not a number. -/
  | parameter (value : Double)
deriving DecidableEq, Repr

/-- How a program fails to be a single block with the entry point's attributes. -/
inductive Malformation where
  | functionCount (count : Nat)
  | blockCount (function : String) (count : Nat)
  | noInitialization
  | noReturn
  | terminatorCount (count : Nat)
  | noAttributes (function : String)
  | notMarked
  | attributeValue (key : String) (found : Option String) (expected : String)
  | duplicateDeclaration (name : String)
  | undeclared (callee : String)
  | argumentTypes (callee : String)
deriving DecidableEq, Repr

/-- One of the two forms in which a program is handed out. -/
inductive Rendering where
  | text
  | bitcode
deriving DecidableEq, Repr

/-- How a rendering differs from the program it was made from. -/
inductive Disagreement where
  | textUnreadable (e : Assembly.Error)
  | bitcodeUnreadable (e : Bitcode.Error)
  | declarations (r : Rendering) (found expected : Nat)
  | instructions (r : Rendering) (found expected : Nat)
  | attributes (r : Rendering)
deriving DecidableEq, Repr

/-- Why a circuit is not lowered. -/
inductive Error where
  /-- An operation, named by its position, is at fault. -/
  | operation (position : Nat) (fault : OperationFault)
  | layout (register : String) (issue : LayoutIssue)
  | disagreement (d : Disagreement)
  | malformed (m : Malformation)
deriving DecidableEq, Repr

/-! ## Messages -/

namespace Reference

def message : Reference → String
  | qubit q count =>
    s!"refers to qubit {q.toNat} but the circuit has {count.toNat} qubits"
  | repeatedQubit q => s!"uses qubit {q.toNat} more than once"
  | unknownRegister register => s!"writes to unknown classical register `{register}`"
  | bit register index size =>
    s!"writes to bit {index.toNat} of classical register `{register}` which has {size.toNat} bits"
  | missingResult => "is a measurement without a result target"
  | unexpectedResult => "has a result target but is not a measurement"

end Reference

namespace LayoutIssue

def message : LayoutIssue → String
  | duplicate => "is declared more than once"
  | overlap offset expected =>
    s!"starts at offset {offset.toNat} and overlaps the previous register, " ++
      s!"expected offset {expected.toNat}"
  | gap offset expected =>
    s!"starts at offset {offset.toNat} and leaves a gap, expected offset {expected.toNat}"
  | tooLarge => "exceeds the maximum number of results"

end LayoutIssue

namespace OperationFault

/-- What the operation at a position gets wrong. -/
def message (position : Nat) : OperationFault → String
  | unsupported name => s!"operation {position} (`{name}`) has no QIR instruction"
  | reference r => s!"operation {position} {r.message}"
  | parameter value => s!"operation {position} has a non-finite parameter `{value.text}`"

end OperationFault

namespace Malformation

def message : Malformation → String
  | functionCount count => s!"expected exactly one defined function, found {count}"
  | blockCount function count =>
    s!"entry point `{function}` must have exactly one block, found {count}"
  | noInitialization => "entry block does not start with runtime initialization"
  | noReturn => "entry block does not end with `ret`"
  | terminatorCount count => s!"entry block has {count} terminators, expected 1"
  | noAttributes function => s!"entry point `{function}` has no attributes"
  | notMarked => "entry point attributes lack `entry_point`"
  | attributeValue key found expected =>
    s!"attribute `{key}` is {quotedOption found}, expected " ++ "\"" ++ expected ++ "\""
  | duplicateDeclaration name => s!"`{name}` is declared more than once"
  | undeclared callee => s!"call to undeclared `{callee}`"
  | argumentTypes callee => s!"call to `{callee}` does not match its declared parameters"

end Malformation

namespace Rendering

def name : Rendering → String
  | text => "text"
  | bitcode => "bitcode"

end Rendering

namespace Disagreement

def message : Disagreement → String
  | textUnreadable e => s!"text rendering does not parse: {e.message}"
  | bitcodeUnreadable e => s!"bitcode rendering does not decode: {e.message}"
  | declarations r found expected =>
    s!"{r.name} rendering has {found} declarations, expected {expected}"
  | instructions r found expected =>
    s!"{r.name} rendering has {found} instructions, expected {expected}"
  | attributes r => s!"{r.name} rendering has different attributes"

end Disagreement

namespace Error

def message : Error → String
  | operation position fault => fault.message position
  | layout register issue => s!"classical register `{register}` {issue.message}"
  | disagreement d => s!"text and bitcode renderings disagree: {d.message}"
  | malformed m => s!"generated module is malformed: {m.message}"

/-- The name under which a problem is catalogued. -/
def code : Error → String
  | operation _ (.unsupported _) => "Qsc.Qir.UnsupportedOperation"
  | operation _ (.reference _) => "Qsc.Qir.InvalidReference"
  | operation _ (.parameter _) => "Qsc.Qir.InvalidParameter"
  | layout _ _ => "Qsc.Qir.MalformedRegisterLayout"
  | disagreement _ => "Qsc.Qir.SerializationMismatch"
  | malformed _ => "Qsc.Qir.MalformedModule"

/-- What a user can do about a problem. -/
def help? : Error → Option String
  | operation _ (.unsupported _) =>
    some ("structured control flow and unrecognized gates must be decomposed " ++
      "before generating QIR")
  | layout _ _ =>
    some ("registers must be listed in order with offsets starting at 0 " ++
      "and no gaps or overlaps")
  | _ => none

end Error

end CircuitQir
