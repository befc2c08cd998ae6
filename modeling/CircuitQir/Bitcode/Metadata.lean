import CircuitQir.Bitcode.Tables
/-!
# Reading module flags

A block of metadata numbers strings, constants and nodes in one sequence. A named list at its end
refers to nodes; the list of module flags refers to nodes with three parts each: a behavior, a key
and a value.
-/

namespace CircuitQir.Bitcode

open Ir Bitstream

/-- A metadata node. -/
inductive Metadata where
  | string (s : String)
  | value (c : Constant)
  /-- References to other nodes, by their number plus one. -/
  | node (refs : List Nat)

/-- The node that a reference names. -/
def Metadata.at? (nodes : List Metadata) : (ref : Nat) → Option Metadata
  | 0 => none
  | i + 1 => nodes[i]?

/-- The value of a module flag. -/
def flagValueOf : Constant → Checked FlagValue
  | .int 32 v =>
    if -2 ^ 31 ≤ v ∧ v < 2 ^ 31 then .ok (.i32 (Int32.ofInt v)) else reject .flagRange
  | .int 1 v => .ok (.bool (v != 0))
  | _ => refuse .flagType

/-- The module flag whose parts are listed by the node with a number. -/
def flagOf (nodes : List Metadata) (id : Nat) : Checked ModuleFlag :=
  match nodes[id]? with
  | some (.node refs) =>
    match refs.map (Metadata.at? nodes) with
    | [some (.value (.int 32 behavior)), some (.string key), some (.value c)] =>
      if 0 ≤ behavior ∧ behavior < 2 ^ 32 then do
        return ⟨UInt32.ofNat behavior.toNat, key, ← flagValueOf c⟩
      else reject (.flagBehavior behavior)
    | _ => reject (.flagTuple id)
  | _ => reject (.flagNode id)

/-- The flags that metadata records add to those known, when some nodes have been read. -/
def readMetadata (values : List Value) (nodes : List Metadata) (flags : List ModuleFlag) :
    List Record → Checked (List ModuleFlag)
  | [] => .ok flags
  | r :: rs =>
    match r.code with
    | MetadataCode.string => do
      let s ← stringOf r.ops
      readMetadata values (nodes ++ [.string s]) flags rs
    | MetadataCode.value =>
      match r.ops with
      | [_, value] =>
        match values[value]? with
        | some (.constant c) => readMetadata values (nodes ++ [.value c]) flags rs
        | _ => reject .metadataConstant
      | _ => reject .metadataValue
    | MetadataCode.node => readMetadata values (nodes ++ [.node r.ops]) flags rs
    | MetadataCode.name => do
      let name ← stringOf r.ops
      match rs with
      | [] => reject .nameWithoutNode
      | named :: rs =>
        if named.code = MetadataCode.namedNode then
          let more ← if name = flagListName then named.ops.mapM (flagOf nodes) else pure []
          readMetadata values nodes (flags ++ more) rs
        else reject .nameWithoutNode
    | code => refuse (.metadataRecord (shownCode code))

end CircuitQir.Bitcode
