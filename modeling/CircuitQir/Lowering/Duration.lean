import CircuitQir.Circuit.Basic
import CircuitQir.Double.Decimal
import CircuitQir.Double.Product
/-!
# Durations

Programs state durations in microseconds, or in cycles where the circuit does. A conversion is one
multiplication by the double nearest to the factor.
-/

namespace CircuitQir.TimeUnit

/-- How many microseconds the unit has, unless no conversion is needed. -/
def microsecondFactor? : TimeUnit → Option Decimal
  | s => some ⟨1, 6⟩
  | ms => some ⟨1, 3⟩
  | us => none
  | ns => some ⟨1, -3⟩
  | ps => some ⟨1, -6⟩
  | dt => none

/-- A duration in microseconds. Device cycles stay what they are. -/
def toMicroseconds (u : TimeUnit) (duration : Double) : Double :=
  match u.microsecondFactor? with
  | some factor => duration.mul (factor.toDouble false)
  | none => duration

end CircuitQir.TimeUnit
