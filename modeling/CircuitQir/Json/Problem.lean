import CircuitQir.Double.Text
import CircuitQir.Json.Value
import CircuitQir.Text.Numeral
import CircuitQir.Text.Quoted
/-!
# What can be wrong with a JSON document

A text may break the syntax of JSON, which carries no further message, or it may be JSON of the
wrong shape.
-/

namespace CircuitQir.Json

/-- What stands where something else was expected. -/
inductive Found where
  | null
  | bool (b : Bool)
  | integer (n : Int)
  | double (d : Double)
  | string (s : String)
  | sequence
  | map
  /-- The name of a variant without the value it needs. -/
  | bareVariant
deriving DecidableEq, Repr

/-- Why a document is rejected. -/
inductive Problem where
  | syntaxError
  | missingField (name : String)
  | duplicateField (name : String)
  | unknownVariant (name : String) (expected : List String)
  | invalidType (found : Found) (expected : String)
  | integerRange (n : Int) (expected : String)
  /-- A list in place of a structure ends before a field that is required. -/
  | invalidLength (length : Nat) (shape : String) (fields : Nat)
deriving DecidableEq, Repr

namespace Found

def text : Found → String
  | null => "null"
  | bool b => "boolean `" ++ String.ofList (boolText b) ++ "`"
  | integer n => "integer `" ++ Numeral.ofInt n ++ "`"
  | double d => "floating point `" ++ String.ofList (doubleText d) ++ "`"
  | string s => "string " ++ quotedForm s
  | sequence => "sequence"
  | map => "map"
  | bareVariant => "unit variant"

end Found

/-- A list of names in which each stands between back quotes. -/
def namesText : List String → String
  | [] => ""
  | [n] => "`" ++ n ++ "`"
  | n :: ns => "`" ++ n ++ "`, " ++ namesText ns

namespace Problem

/-- The message of a problem of shape. A broken text has none. -/
def message? : Problem → Option String
  | syntaxError => none
  | missingField name => some ("missing field `" ++ name ++ "`")
  | duplicateField name => some ("duplicate field `" ++ name ++ "`")
  | unknownVariant name expected =>
    some ("unknown variant `" ++ name ++ "`, expected one of " ++ namesText expected)
  | invalidType found expected =>
    some ("invalid type: " ++ found.text ++ ", expected " ++ expected)
  | integerRange n expected =>
    some ("invalid value: integer `" ++ Numeral.ofInt n ++ "`, expected " ++ expected)
  | invalidLength length shape fields =>
    some ("invalid length " ++ Numeral.ofNat length ++ ", expected struct " ++ shape ++
      " with " ++ Numeral.ofNat fields ++ " elements")

end Problem

end CircuitQir.Json
