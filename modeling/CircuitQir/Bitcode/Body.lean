import CircuitQir.Bitcode.ConstantTable
/-!
# Reading function bodies

A body declares how many blocks it has. Its calls and returns then fill the blocks one after the
other: a return ends its block. A call refers to functions and constants by counting back from the
number it would have itself, and takes up that number if it yields a value.
-/

namespace CircuitQir.Bitcode

open Ir Bitstream

/-- The labels given in some symbol records, each with the number of its block. -/
def labelsOf (records : List Record) : Checked (List (Nat × String)) :=
  (records.filter (·.code = SymbolCode.block)).foldlM (fun labels r =>
    match r.ops with
    | [] => .ok labels
    | id :: name => do return (id, ← stringOf name) :: labels) []

/-- The call that a record stands for, and whether it yields a value. References count back from
the end of `values`. -/
def callOf (t : Tables) (values : List Value) (ops : List Nat) : Checked (Instruction × Bool) :=
  match ops with
  | _ :: flags :: rest =>
    let rest := if flags.testBit arithmeticFlagsBit then rest.drop 1 else rest
    if !flags.testBit explicitTypeBit then refuse .untypedCall
    else
      match rest with
      | type :: back :: args => do
        let next := values.length
        if next < back then .error (.unknownCallee back)
        else
          match values[next - back]? with
          | some (.function f) =>
            let callee := (t.functions.map (·.name)).getD f ""
            let (result, params) ← t.signature type
            if params.length ≠ args.length then
              reject (.argumentCount callee args.length params.length)
            else
              let args ← args.mapM fun back =>
                if next < back then reject .forwardReference
                else
                  match values[next - back]? with
                  | some (.constant c) =>
                    match c.operand? with
                    | some o => .ok o
                    | none => reject .argumentType
                  | _ => refuse .computedArgument
              return (.call callee args, result.isSome)
          | _ => .error (.unknownCallee (next - back))
      | _ => reject .shortCall
  | _ => reject .shortCall

/-- A function body while it is read. -/
structure Body where
  /-- The values the body can refer to: those of the module, then its own. -/
  values : List Value
  blocks : List Ir.Block
  /-- The number of the block that instructions go to. -/
  current : Nat

/-- The body after one more instruction. A return ends the current block. -/
def Body.append (b : Body) (i : Instruction) : Checked Body :=
  if b.current < b.blocks.length then
    .ok { b with
      blocks := b.blocks.modify b.current fun block =>
        { block with instructions := block.instructions ++ [i] }
      current := if i.isTerminator then b.current + 1 else b.current }
  else reject .outsideBlocks

/-- The body after one more entry of its block, which has `size` entries. -/
def Body.read (t : Tables) (labels : List (Nat × String)) (size : Nat) (b : Body) :
    Entry → Checked Body
  | .block BlockId.constants entries => do
    return { b with values := ← readConstants t b.values none (Bitstream.Block.mk 0 entries).records }
  | .block _ _ => .ok b
  | .record r =>
    match r.code, r.ops with
    | FunctionCode.blockCount, ops =>
      let count := ops.headD 0
      if size < count then reject .blockCount
      else
        .ok { b with
          blocks := (List.range count).map fun i => ⟨(labels.lookup i).getD "", []⟩ }
    | FunctionCode.ret, [] => b.append .ret
    | FunctionCode.call, ops => do
      let (i, yields) ← callOf t b.values ops
      { b with values := if yields then b.values ++ [Value.other] else b.values }.append i
    | code, _ => refuse (.instructionRecord (shownCode code))

/-- The blocks of a function body. It belongs to the first function that has none yet. -/
def bodyOf (t : Tables) (body : Bitstream.Block) : Checked (List Ir.Block) := do
  let symbols := body.blocks.filter (·.id = BlockId.symbols)
  let labels ← labelsOf (symbols.flatMap (·.records))
  match t.defined[t.bodies.length]? with
  | none => reject .surplusBody
  | some f =>
    let (_, params) ← t.signature f.type
    let start : Body := ⟨t.values ++ params.map (fun _ => Value.other), [], 0⟩
    let b ← body.entries.foldlM (Body.read t labels body.entries.length) start
    return b.blocks

end CircuitQir.Bitcode
