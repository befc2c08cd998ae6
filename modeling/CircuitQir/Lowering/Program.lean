import CircuitQir.Assembly.Printer
import CircuitQir.Bitcode.Encoding
import CircuitQir.Lowering.Emission
import CircuitQir.Lowering.EntryPointName
import CircuitQir.Lowering.Verification
/-!
# Lowering circuits to programs

A `Program` is a module together with its two renderings and the resources it needs. The circuit
is checked first, then its operations become calls, and what comes out is checked before it is
handed out.
-/

namespace CircuitQir

open Ir

/-- What a circuit is lowered to. -/
structure Program where
  module : Module
  text : String
  bitcode : List UInt8
  resources : Resources
deriving DecidableEq

namespace Program

/-- The name of the entry point. -/
def entryPoint (p : Program) : String := (p.module.functions.head?.map (·.name)).getD ""

end Program

namespace Circuit

/-- The module of a circuit whose resources are known. -/
def toModule (c : Circuit) (o : Options) (r : Resources) : Except Error Module :=
  let name := entryPointName c o
  match (EntryBlock.start name name).emit c o with
  | (_, some e) => .error e
  | (b, none) =>
    let b := if o.recordOutput && 0 < r.results then b.recordOutput c.registers else b
    .ok (b.finish r o.profile)

/-- The program of a circuit. -/
def lower (c : Circuit) (o : Options) : Except Error Program := do
  let r ← Resources.account c
  let m ← c.toModule o r
  (verify m r).mapError Error.malformed
  let text := Assembly.print m
  let bitcode := Bitcode.encode m
  (checkRenderings m text bitcode).mapError Error.disagreement
  return ⟨m, text, bitcode, r⟩

end Circuit

end CircuitQir
