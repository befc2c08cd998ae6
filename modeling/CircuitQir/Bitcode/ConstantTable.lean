import CircuitQir.Bitcode.Tables
/-!
# Reading constants

A block of constants is a list of records in which a change of type is announced. A record may
refer to the constants before it, so the values known so far grow along the way.
-/

namespace CircuitQir.Bitcode

open Ir Bitstream

/-- The constant that a record stands for among constants of type `current`. Casts refer to
`values`. -/
def constantOf (values : List Value) (current : Option TypeEntry) (r : Record) :
    Checked Constant :=
  match r.code, current, r.ops with
  | ConstantCode.null, some .ptr, _ => .ok .null
  | ConstantCode.integer, some (.int width), [n] => .ok (.int width (decodeSigned n))
  | ConstantCode.float, some .double, [bits] => .ok (.double ⟨UInt64.ofNat bits⟩)
  | ConstantCode.cast, some .ptr, [ConstantCode.integerToPointer, _, operand] =>
    match values[operand]? with
    | some (.constant (.int 64 v)) => .ok (.pointer (UInt64.ofInt v))
    | _ => reject .castOperand
  | code, _, _ => refuse (.constantRecord (shownCode code))

/-- The values with the constants of some records added. -/
def readConstants (t : Tables) (values : List Value) (current : Option TypeEntry) :
    List Record → Checked (List Value)
  | [] => .ok values
  | r :: rs =>
    if r.code = ConstantCode.setType then do
      let type ← t.typeEntry (r.ops.headD (2 ^ 64 - 1))
      readConstants t values (some type) rs
    else do
      let c ← constantOf values current r
      readConstants t (values ++ [.constant c]) current rs

end CircuitQir.Bitcode
