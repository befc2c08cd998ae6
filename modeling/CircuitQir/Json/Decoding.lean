import CircuitQir.Json.Problem
import CircuitQir.Json.Tree
/-!
# Decoding JSON documents

A `Decoder` turns a tree into a value of the domain, or tells the first problem that is met from
left to right. A number, string, list or object is looked at only as far as its decoder needs:
where a list is not wanted at all its elements do not matter, and a field that is not known only
has to be complete.

A structure is written as an object, or as the list of its fields in order. Fields with a default
may be left out, in a list only from the end.
-/

namespace CircuitQir.Json

/-- A way to read values out of trees. -/
abbrev Decoder (α : Type) := Tree → Except Problem α

namespace Decoder

/-! ## Single values -/

/-- The problem with a value where something else is expected. -/
def mismatch (expected : String) : Tree → Problem
  | .broken => .syntaxError
  | .number none => .syntaxError
  | .string none => .syntaxError
  | .null => .invalidType .null expected
  | .bool b => .invalidType (.bool b) expected
  | .number (some (.natural n)) => .invalidType (.integer n) expected
  | .number (some (.negative n)) => .invalidType (.integer (-n)) expected
  | .number (some (.double d)) => .invalidType (.double d) expected
  | .string (some s) => .invalidType (.string s) expected
  | .array _ _ => .invalidType .sequence expected
  | .object _ _ => .invalidType .map expected

def string : Decoder String
  | .string (some s) => .ok s
  | t => .error (mismatch "a string" t)

def boolean : Decoder Bool
  | .bool b => .ok b
  | t => .error (mismatch "a boolean" t)

/-- A whole number of 32 bits without a sign. -/
def uint32 : Decoder UInt32
  | .number (some (.natural n)) =>
    if n < 2 ^ 32 then .ok (UInt32.ofNat n) else .error (.integerRange n "u32")
  | .number (some (.negative n)) => .error (.integerRange (-n) "u32")
  | t => .error (mismatch "u32" t)

/-- Any number, whole numbers rounded to the nearest double. -/
def double : Decoder Double
  | .number (some (.natural n)) => .ok (Decimal.toDouble false ⟨n, 0⟩)
  | .number (some (.negative n)) => .ok (Decimal.toDouble true ⟨n, 0⟩)
  | .number (some (.double d)) => .ok d
  | t => .error (mismatch "f64" t)

/-- A value that may be absent, which is written as `null`. -/
def nullable {α : Type} (d : Decoder α) : Decoder (Option α)
  | .null => .ok none
  | t => (d t).map some

def list {α : Type} (d : Decoder α) : Decoder (List α)
  | .array items closed => do
    let xs ← items.mapM d
    if closed then return xs else throw .syntaxError
  | t => .error (mismatch "a sequence" t)

/-! ## Variants -/

/-- One of several named variants. A variant with a value is an object with its name as the only
key; the decoder is given the name, and the value if there is one. -/
def variant {α : Type} (names : List String) (d : String → Option Tree → Except Problem α) :
    Decoder α
  | .string (some name) =>
    if names.contains name then d name none else .error (.unknownVariant name names)
  | .object ((some name, value) :: others) closed =>
    if names.contains name then do
      let x ← d name (some value)
      if closed && others.isEmpty then return x else throw .syntaxError
    else .error (.unknownVariant name names)
  | _ => .error .syntaxError

/-- The value of a variant that has none: nothing, or `null`. -/
def noValue : Option Tree → Except Problem Unit
  | none => .ok ()
  | some .null => .ok ()
  | some t => .error (mismatch "unit" t)

/-- The value of a variant that needs one. -/
def oneValue {α : Type} (d : Decoder α) : Option Tree → Except Problem α
  | some t => d t
  | none => .error (.invalidType .bareVariant "newtype variant")

/-- One of several values that have a name each. -/
def named {α : Type} (all : List α) (name : α → String) : Decoder α :=
  variant (all.map name) fun n value => do
    noValue value
    match all.find? (name · = n) with
    | some x => return x
    | none => throw .syntaxError

end Decoder

/-! ## Structures -/

/-- A field of a structure: its name, whether it may be left out, and a check of its value. -/
structure Field where
  name : String
  required : Bool
  check : Tree → Except Problem Unit

namespace Field

def mandatory {α : Type} (name : String) (d : Decoder α) : Field :=
  ⟨name, true, fun t => (d t).map fun _ => ()⟩

def optional {α : Type} (name : String) (d : Decoder α) : Field :=
  ⟨name, false, fun t => (d t).map fun _ => ()⟩

end Field

/-- What a structure looks like. -/
structure Shape where
  name : String
  fields : List Field

/-- The values of the fields that are given. -/
abbrev Members := List (String × Tree)

namespace Shape

/-- The known members of an object, given those already met. Each is checked where it stands. -/
def objectMembers (s : Shape) (met : Members) : List (Option String × Tree) → Except Problem Members
  | [] => .ok met
  | (none, _) :: _ => .error .syntaxError
  | (some key, value) :: rest =>
    match s.fields.find? (·.name = key) with
    | some f =>
      if (met.lookup key).isSome then .error (.duplicateField key)
      else do
        f.check value
        s.objectMembers (met ++ [(key, value)]) rest
    | none =>
      if value.isWellFormed then s.objectMembers met rest else .error .syntaxError

/-- The members that a list gives to fields, the first of which has the given position. -/
def listMembers (s : Shape) (position : Nat) (closed : Bool) :
    List Field → List Tree → Except Problem Members
  | [], [] => if closed then .ok [] else .error .syntaxError
  | [], _ :: _ => .error .syntaxError
  | f :: fs, t :: ts => do
    f.check t
    return (f.name, t) :: (← s.listMembers (position + 1) closed fs ts)
  | f :: fs, [] =>
    if !closed then .error .syntaxError
    else if f.required then .error (.invalidLength position s.name s.fields.length)
    else s.listMembers (position + 1) closed fs []

/-- The members of a structure, all of them checked and none required missing. -/
def members (s : Shape) : Tree → Except Problem Members
  | .object ms closed => do
    let met ← s.objectMembers [] ms
    if !closed then throw .syntaxError
    else
      match s.fields.find? fun f => f.required && (met.lookup f.name).isNone with
      | some f => throw (.missingField f.name)
      | none => return met
  | .array items closed => s.listMembers 0 closed s.fields items
  | t => .error (Decoder.mismatch ("struct " ++ s.name) t)

end Shape

namespace Members

/-- The value of a field that has to be there. -/
def get {α : Type} (ms : Members) (name : String) (d : Decoder α) : Except Problem α :=
  match ms.lookup name with
  | some t => d t
  | none => .error (.missingField name)

/-- The value of a field that may be left out. -/
def getD {α : Type} (ms : Members) (name : String) (d : Decoder α) (default : α) :
    Except Problem α :=
  match ms.lookup name with
  | some t => d t
  | none => .ok default

end Members

/-! ## Documents -/

/-- The value of a whole text. -/
def decode {α : Type} (d : Decoder α) (text : String) : Except Problem α := do
  let document := documentOf text
  let x ← d document.tree
  if document.trailing then throw .syntaxError else return x

end CircuitQir.Json
