import CircuitQir.Assembly.Parser
import CircuitQir.Bitcode.Decoding
import CircuitQir.Lowering.Catalog
import CircuitQir.Lowering.Resources
import CircuitQir.Text.Numeral
/-!
# Checks on a program

`verify` checks that a module is a program with one block, whose entry point declares the
resources and whose calls match their declarations. `checkRenderings` reads both forms of a
program back and compares what can be counted: declarations, instructions and attributes.
-/

namespace CircuitQir

open Ir

/-- Checks a condition. -/
def ensure {ε : Type} (condition : Bool) (e : ε) : Except ε Unit :=
  if condition then .ok () else .error e

/-! ## The shape of a program -/

/-- Checks the first and the last instruction of the block. -/
def checkEnds (is : List Instruction) : Except Malformation Unit := do
  ensure ((is.head?.bind Instruction.callee?) = some Intrinsic.initialization.name)
    .noInitialization
  ensure (is.getLast?.any Instruction.isTerminator) .noReturn
  let terminators := (is.filter Instruction.isTerminator).length
  ensure (terminators = 1) (.terminatorCount terminators)

/-- Checks that a group declares a number under a key. -/
def checkNumber (g : AttributeGroup) (key : String) (n : UInt32) : Except Malformation Unit :=
  let expected := Numeral.ofNat n.toNat
  ensure (g.value? key = some expected) (.attributeValue key (g.value? key) expected)

/-- Checks the attributes of the entry point. -/
def checkAttributes (m : Module) (f : Function) (r : Resources) : Except Malformation Unit :=
  match m.groupOf? f with
  | none => .error (.noAttributes f.name)
  | some g => do
    ensure (g.hasFlag "entry_point") .notMarked
    checkNumber g "requiredQubits" r.qubits
    checkNumber g "requiredResults" r.results

/-- Checks that no name is declared twice, given the names declared before. -/
def checkNames (seen : List String) : List Declaration → Except Malformation Unit
  | [] => .ok ()
  | d :: ds =>
    if seen.contains d.name then .error (.duplicateDeclaration d.name)
    else checkNames (d.name :: seen) ds

/-- Checks an instruction against the declarations of a module. -/
def checkCall (m : Module) : Instruction → Except Malformation Unit
  | .ret => .ok ()
  | .call callee args =>
    match m.declaration? callee with
    | none => .error (.undeclared callee)
    | some d => ensure (args.map Operand.type = d.params) (.argumentTypes callee)

/-- Checks a program that needs the given resources. -/
def verify (m : Module) (r : Resources) : Except Malformation Unit :=
  match m.functions with
  | [f] =>
    match f.blocks with
    | [b] => do
      checkEnds b.instructions
      checkAttributes m f r
      checkNames [] m.declarations
      b.instructions.forM (checkCall m)
    | blocks => .error (.blockCount f.name blocks.length)
  | functions => .error (.functionCount functions.length)

/-! ## The renderings of a program -/

/-- Compares a module read from a rendering with the one it was made from. -/
def checkRendering (r : Rendering) (found expected : Module) : Except Disagreement Unit := do
  ensure (found.declarations.length = expected.declarations.length)
    (.declarations r found.declarations.length expected.declarations.length)
  ensure (found.instructions.length = expected.instructions.length)
    (.instructions r found.instructions.length expected.instructions.length)
  ensure (found.attributeGroups = expected.attributeGroups) (.attributes r)

/-- Checks both renderings of a module. Neither is compared before both have been read. -/
def checkRenderings (m : Module) (text : String) (bitcode : List UInt8) :
    Except Disagreement Unit :=
  match Assembly.parse text with
  | .error e => .error (.textUnreadable e)
  | .ok fromText =>
    match Bitcode.decode bitcode with
    | .error e => .error (.bitcodeUnreadable e)
    | .ok fromBitcode => do
      checkRendering .text fromText m
      checkRendering .bitcode fromBitcode m

end CircuitQir
