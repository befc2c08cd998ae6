import CircuitQir.Bitstream.Error
/-!
# What can be wrong with bitcode

The container may be broken, the records may contradict each other, or they may be in order but
use a part of the format that the library does not read.
-/

namespace CircuitQir.Bitcode

/-- How the records of a file contradict each other. -/
inductive Contradiction where
  | noModule
  | characterRange
  | notUtf8
  | unterminatedAttribute
  | shortGroup
  | groupId (id : Nat)
  | shortFunction
  | nameOutsideTable
  | nameNotUtf8
  | notFunctionTyped (name : String)
  | unknownList (list : Nat)
  | severalGroups
  | unknownGroup (group : Nat)
  | integerWithoutWidth
  | emptyFunctionType
  | unknownType (id : Nat)
  | notFunctionType (id : Nat)
  | castOperand
  | metadataValue
  | metadataConstant
  | nameWithoutNode
  | flagNode (id : Nat)
  | flagTuple (id : Nat)
  | flagBehavior (behavior : Int)
  | flagRange
  | surplusBody
  | blockCount
  | outsideBlocks
  | shortCall
  | argumentCount (callee : String) (passed expected : Nat)
  | forwardReference
  | argumentType
  | missingBody (name : String)
deriving DecidableEq, Repr

/-- A part of the format that is not read. -/
inductive Construct where
  | placedAttributes
  | attributeKind (kind : Nat)
  | variadicFunction
  | signatureType (id : Nat)
  | constantRecord (code : Nat)
  | metadataRecord (code : Nat)
  | flagType
  | instructionRecord (code : Nat)
  | untypedCall
  | computedArgument
deriving DecidableEq, Repr

/-- Why bitcode is rejected. -/
inductive Error where
  | stream (e : Bitstream.Error)
  | unsupportedVersion (version : Nat)
  | invalid (c : Contradiction)
  | unsupported (c : Construct)
  /-- What a call calls is not a function. -/
  | unknownCallee (value : Nat)
deriving DecidableEq, Repr

namespace Contradiction

def message : Contradiction → String
  | noModule => "no module block"
  | characterRange => "string character out of range"
  | notUtf8 => "string is not valid UTF-8"
  | unterminatedAttribute => "unterminated attribute string"
  | shortGroup => "attribute group record is too short"
  | groupId id => s!"attribute group id {id}"
  | shortFunction => "function record is too short"
  | nameOutsideTable => "function name lies outside the string table"
  | nameNotUtf8 => "function name is not valid UTF-8"
  | notFunctionTyped name => s!"`{name}` does not have a function type"
  | unknownList list => s!"unknown attribute list {list}"
  | severalGroups => "functions must carry a single attribute group"
  | unknownGroup group => s!"unknown attribute group {group}"
  | integerWithoutWidth => "integer type without a width"
  | emptyFunctionType => "function type record is empty"
  | unknownType id => s!"unknown type {id}"
  | notFunctionType id => s!"type {id} is not a function type"
  | castOperand => "`inttoptr` of a value that is not an i64"
  | metadataValue => "metadata value record"
  | metadataConstant => "metadata refers to a value that is not a constant"
  | nameWithoutNode => "metadata name without a named node"
  | flagNode id => s!"module flag {id} is not a tuple"
  | flagTuple id => s!"module flag {id} is not a flag tuple"
  | flagBehavior behavior => s!"module flag behavior {behavior}"
  | flagRange => "module flag value out of range"
  | surplusBody => "function body without a defined function"
  | blockCount => "more blocks declared than instructions"
  | outsideBlocks => "instruction outside the declared blocks"
  | shortCall => "call record is too short"
  | argumentCount callee passed expected =>
    s!"call to `{callee}` passes {passed} arguments, its type has {expected}"
  | forwardReference => "forward reference in call argument"
  | argumentType => "call argument of unsupported type"
  | missingBody name => s!"`{name}` has no body"

end Contradiction

namespace Construct

def message : Construct → String
  | placedAttributes => "attributes on parameters or return values"
  | attributeKind kind => s!"attribute kind {kind}"
  | variadicFunction => "variadic functions"
  | signatureType id => s!"type {id} in a signature"
  | constantRecord code => s!"constant record {code}"
  | metadataRecord code => s!"metadata record {code}"
  | flagType => "module flag value type"
  | instructionRecord code => s!"instruction record {code}"
  | untypedCall => "calls without an explicit function type"
  | computedArgument => "non-constant call arguments"

end Construct

namespace Error

def message : Error → String
  | stream e => e.message
  | unsupportedVersion version => s!"unsupported bitcode module version {version}"
  | invalid c => s!"invalid bitcode module: {c.message}"
  | unsupported c => s!"bitcode uses a construct outside the QIR subset: {c.message}"
  | unknownCallee value => s!"call refers to value {value}, which is not a function"

/-- The name under which a problem is catalogued. -/
def code : Error → String
  | stream e => e.code
  | unsupportedVersion _ => "Qsc.Llvm.UnsupportedVersion"
  | invalid _ => "Qsc.Llvm.InvalidModule"
  | unsupported _ => "Qsc.Llvm.Unsupported"
  | unknownCallee _ => "Qsc.Llvm.UnknownCallee"

end Error

end CircuitQir.Bitcode
