import CircuitQir.Circuit.Basic
import CircuitQir.Lowering.Options
/-!
# The name of the entry point

An entry point bears the name that the options give, or else the name of the circuit, made into
an identifier: every character that has no place in one becomes an underscore, and an underscore
goes ahead of a leading digit.
-/

namespace CircuitQir

/-- Whether a character may stand in the name of an entry point. -/
def isIdentifierCharacter (c : Char) : Bool := c.isAlphanum || c == '_' || c == '.'

/-- The identifier made of a name. The empty name becomes `main`. -/
def identifierOf (raw : String) : String :=
  let cs := raw.toList.map fun c => if isIdentifierCharacter c then c else '_'
  match cs with
  | [] => "main"
  | c :: _ => String.ofList (if c.isDigit then '_' :: cs else cs)

/-- The name of the entry point for a circuit. -/
def entryPointName (c : Circuit) (o : Options) : String :=
  identifierOf (o.entryPoint.getD c.name)

end CircuitQir
