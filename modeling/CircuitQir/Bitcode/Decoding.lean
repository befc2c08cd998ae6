import CircuitQir.Bitcode.Body
import CircuitQir.Bitcode.Metadata
import CircuitQir.Bitstream.Decoding
/-!
# Reading bitcode

The entries of the module block are taken one after the other into the tables; a record may refer
only to what stands before it. When all are in, functions are given the bodies that were found,
in order, and the module is complete.

Kinds of blocks and of module records that are not known are passed over. Anything not known
among types, constants, metadata and instructions is refused where ignoring it could change the
meaning of the rest.
-/

namespace CircuitQir.Bitcode

open Ir Bitstream

/-! ## Attributes and types -/

/-- The attributes that some operands spell out. -/
def attributesOf : (ops : List Nat) → Checked (List Attribute)
  | [] => .ok []
  | kind :: ops =>
    match _h : terminatedStringOf ops with
    | .error e => .error e
    | .ok (key, rest) =>
      match kind with
      | AttributeCode.string => do return .flag key :: (← attributesOf rest)
      | AttributeCode.stringPair =>
        match _h₂ : terminatedStringOf rest with
        | .error e => .error e
        | .ok (value, rest) => do return .keyValue key value :: (← attributesOf rest)
      | kind => refuse (.attributeKind kind)
termination_by ops => ops.length
decreasing_by
  · have := terminatedStringOf_lt _h
    simp; omega
  · have := terminatedStringOf_lt _h
    have := terminatedStringOf_lt _h₂
    simp; omega

/-- The group that a group record defines, with the number that lists use for it. -/
def groupOf (ops : List Nat) : Checked (Nat × AttributeGroup) :=
  match ops with
  | number :: place :: rest =>
    if place ≠ functionPlace then refuse .placedAttributes
    else if number = 0 ∨ 2 ^ 32 < number then reject (.groupId number)
    else do return (number, ⟨UInt32.ofNat (number - 1), ← attributesOf rest⟩)
  | _ => reject .shortGroup

/-- The entry that a type record adds to the type table, if it adds one. -/
def typeOf (r : Record) : Checked (Option TypeEntry) :=
  match r.code with
  | TypeCode.count => .ok none
  | TypeCode.void => .ok (some .void)
  | TypeCode.double => .ok (some .double)
  | TypeCode.pointer => .ok (some .ptr)
  | TypeCode.integer =>
    match r.ops with
    | width :: _ => .ok (some (.int width))
    | [] => reject .integerWithoutWidth
  | TypeCode.function =>
    match r.ops with
    | 0 :: result :: params => .ok (some (.function result params))
    | _ :: _ => refuse .variadicFunction
    | [] => reject .emptyFunctionType
  | _ => .ok (some .other)

/-! ## The module block -/

namespace Tables

/-- Takes in a record of the module block. -/
def readRecord (t : Tables) (r : Record) : Checked Tables :=
  match r.code with
  | ModuleCode.version =>
    let version := r.ops.headD 0
    if version = formatVersion then .ok t else .error (.unsupportedVersion version)
  | ModuleCode.sourceName => do return { t with sourceName := ← stringOf r.ops }
  | ModuleCode.function =>
    match r.ops with
    | offset :: size :: type :: _ :: isDeclaration :: _ :: list :: _ => do
      let name ← t.name offset size
      match ← t.typeEntry type with
      | .function _ _ =>
        let f : FunctionEntry := ⟨name, type, isDeclaration ≠ 0, ← t.attributes list⟩
        return { t with
          values := t.values ++ [.function t.functions.length]
          functions := t.functions ++ [f] }
      | _ => reject (.notFunctionTyped name)
    | _ => reject .shortFunction
  | _ => .ok t

/-- Takes in a block inside the module block. -/
def readBlock (t : Tables) (b : Bitstream.Block) : Checked Tables :=
  match b.id with
  | BlockId.attributeGroups => do
    let records := b.records.filter (·.code = AttributeCode.group)
    return { t with groups := t.groups ++ (← records.mapM fun r => groupOf r.ops) }
  | BlockId.attributeLists =>
    let records := b.records.filter (·.code = AttributeCode.list)
    .ok { t with attributeLists := t.attributeLists ++ records.map (·.ops) }
  | BlockId.types => do
    return { t with types := t.types ++ (← b.records.mapM typeOf).filterMap id }
  | BlockId.constants => do return { t with values := ← readConstants t t.values none b.records }
  | BlockId.metadata => do return { t with flags := ← readMetadata t.values [] t.flags b.records }
  | BlockId.function => do return { t with bodies := t.bodies ++ [← bodyOf t b] }
  | _ => .ok t

/-- Takes in an entry of the module block. -/
def read (t : Tables) : Entry → Checked Tables
  | .record r => t.readRecord r
  | .block id entries => t.readBlock ⟨id, entries⟩

/-- Declarations and functions from function records and the bodies for those that need one. -/
def assemble (t : Tables) :
    List FunctionEntry → List (List Ir.Block) → Checked (List Declaration × List Function)
  | [], _ => .ok ([], [])
  | f :: fs, bodies => do
    let (result, params) ← t.signature f.type
    if f.isDeclaration then
      let (ds, gs) ← t.assemble fs bodies
      return (⟨f.name, params, result, f.attributes⟩ :: ds, gs)
    else
      match bodies with
      | [] => reject (.missingBody f.name)
      | blocks :: bodies =>
        let (ds, gs) ← t.assemble fs bodies
        return (ds, ⟨f.name, result, f.attributes, blocks⟩ :: gs)

/-- The module that the tables describe. -/
def toModule (t : Tables) : Checked Module := do
  let (declarations, functions) ← t.assemble t.functions t.bodies
  return ⟨t.sourceName, declarations, functions, t.groups.map (·.2), t.flags⟩

end Tables

/-! ## The whole file -/

/-- The names table among the top-level blocks: the bytes of its first blob record. -/
def stringTableOf (blocks : List Bitstream.Block) : List UInt8 :=
  let records := (blocks.filter (·.id = BlockId.stringTable)).flatMap (·.records)
  ((records.find? (·.code = StringTableCode.blob)).bind (·.blob)).getD []

/-- The module in the top-level blocks of a file. -/
def moduleOf (blocks : List Bitstream.Block) : Checked Module := do
  match blocks.find? (·.id = BlockId.module) with
  | none => reject .noModule
  | some b =>
    let t ← b.entries.foldlM Tables.read (Tables.empty (stringTableOf blocks))
    t.toModule

/-- The module that some bitcode describes. -/
def decode (bytes : List UInt8) : Checked Module :=
  match Bitstream.decode magic bytes with
  | .error e => .error (.stream e)
  | .ok blocks => moduleOf blocks

end CircuitQir.Bitcode
