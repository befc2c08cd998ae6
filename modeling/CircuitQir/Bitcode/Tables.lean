import CircuitQir.Bitcode.Error
import CircuitQir.Bitcode.Format
import CircuitQir.Bitstream.Entry
import CircuitQir.Text.Utf8
/-!
# The tables of a bitcode file

What the records of a module block have said so far: types, attributes, functions, constants and
flags, each in the order of their numbers. `Tables` also answers the questions later records ask
of earlier ones, and refuses numbers that nothing has.
-/

namespace CircuitQir.Bitcode

open Ir Bitstream

/-- A computation that may find fault with a file. -/
abbrev Checked (α : Type) := Except Error α

/-- Rejects a file whose records contradict each other. -/
def reject {α : Type} (c : Contradiction) : Checked α := .error (.invalid c)

/-- Rejects a file for a part of the format that is not read. -/
def refuse {α : Type} (c : Construct) : Checked α := .error (.unsupported c)

/-- A type as read. A function type refers to other types by number. -/
inductive TypeEntry where
  | void
  | int (width : Nat)
  | double
  | ptr
  | function (result : Nat) (params : List Nat)
  | other
deriving DecidableEq, Repr

/-- What a number in the shared numbering of functions and constants stands for. -/
inductive Value where
  /-- The function with this place among the function records. -/
  | function (index : Nat)
  | constant (c : Constant)
  /-- A parameter or the result of a call. -/
  | other
deriving DecidableEq

/-- A function record. -/
structure FunctionEntry where
  name : String
  type : Nat
  isDeclaration : Bool
  attributes : Option UInt32
deriving DecidableEq

/-- What has been read of a module block. -/
structure Tables where
  strings : List UInt8
  sourceName : String
  types : List TypeEntry
  /-- The attribute groups, each with the number that lists use for it. -/
  groups : List (Nat × AttributeGroup)
  attributeLists : List (List Nat)
  functions : List FunctionEntry
  values : List Value
  flags : List ModuleFlag
  bodies : List (List Ir.Block)

/-- The string whose bytes are the given operands. -/
def stringOf (ops : List Nat) : Checked String :=
  if ops.all (· < 256) then
    match Utf8.decode? (ops.map UInt8.ofNat) with
    | some s => .ok s
    | none => reject .notUtf8
  else reject .characterRange

/-- Splits a zero-terminated string off the front of some operands. -/
def terminatedStringOf (ops : List Nat) : Checked (String × List Nat) :=
  if ops.contains 0 then do
    let s ← stringOf (ops.takeWhile (· != 0))
    return (s, (ops.dropWhile (· != 0)).drop 1)
  else reject .unterminatedAttribute

/-- What follows a terminated string is shorter than what began with it. -/
theorem terminatedStringOf_lt {ops rest : List Nat} {s : String}
    (h : terminatedStringOf ops = .ok (s, rest)) : rest.length < ops.length := by
  unfold terminatedStringOf at h
  split at h
  · rename_i hz
    cases hs : stringOf (ops.takeWhile (· != 0)) with
    | error e => rw [hs] at h; exact nomatch h
    | ok t =>
      rw [hs] at h
      cases h
      have hpos : 0 < ops.length := by
        cases ops with
        | nil => simp at hz
        | cons _ _ => simp
      have hle : (ops.dropWhile (· != 0)).length ≤ ops.length :=
        (List.dropWhile_suffix _).length_le
      simp only [List.length_drop]
      omega
  · exact nomatch h

/-- The code of a record as messages show it: codes beyond 32 bits all look alike. -/
def shownCode (code : Nat) : Nat := min code (2 ^ 32 - 1)

namespace Tables

/-- The tables before anything has been read. -/
def empty (strings : List UInt8) : Tables := ⟨strings, "", [], [], [], [], [], [], []⟩

/-! ## Types -/

def typeEntry (t : Tables) (id : Nat) : Checked TypeEntry :=
  match t.types[id]? with
  | some e => .ok e
  | none => reject (.unknownType id)

/-- The type of a parameter or result. -/
def valueType (t : Tables) (id : Nat) : Checked ValueType := do
  match ← t.typeEntry id with
  | .int 1 => return .i1
  | .int 64 => return .i64
  | .double => return .double
  | .ptr => return .ptr
  | _ => refuse (.signatureType id)

def resultType (t : Tables) (id : Nat) : Checked (Option ValueType) := do
  match ← t.typeEntry id with
  | .void => return none
  | _ => return some (← t.valueType id)

/-- The result and the parameters of a function type. -/
def signature (t : Tables) (id : Nat) : Checked (Option ValueType × List ValueType) := do
  match ← t.typeEntry id with
  | .function result params =>
    let params ← params.mapM t.valueType
    return (← t.resultType result, params)
  | _ => reject (.notFunctionType id)

/-! ## Functions -/

/-- The name at a place of the string table. -/
def name (t : Tables) (offset size : Nat) : Checked String :=
  if offset + size ≤ t.strings.length then
    match Utf8.decode? ((t.strings.drop offset).take size) with
    | some s => .ok s
    | none => reject .nameNotUtf8
  else reject .nameOutsideTable

/-- The id of the one attribute group in a list. List 0 stands for no attributes. -/
def attributes (t : Tables) : (list : Nat) → Checked (Option UInt32)
  | 0 => .ok none
  | i + 1 =>
    match t.attributeLists[i]? with
    | none => reject (.unknownList (i + 1))
    | some [group] =>
      match t.groups.find? (·.1 = group) with
      | some (_, g) => .ok (some g.id)
      | none => reject (.unknownGroup group)
    | some _ => reject .severalGroups

/-- The functions that have a body in this module, in order. -/
def defined (t : Tables) : List FunctionEntry := t.functions.filter (!·.isDeclaration)

end Tables

end CircuitQir.Bitcode
