import CircuitQir.Bitcode.Encoding
import CircuitQir.Proofs.Bitcode.Calls
/-!
# Every lookup of the writer succeeds

The numbers that the writer puts into records are places in the lists of a layout, and differences
of such places. `Layout.typeId` and `Layout.constantId` give a number even to what is not in these
lists, and a difference is zero where it ought to be negative, so it takes a proof that neither
ever happens. `items?` writes the same items by lookups that can fail and by differences that
cannot be negative, and gives up at the first that fails. It is followed function by function: what
is asked for is what `Layout.ofModule` has collected, and so nothing fails, whatever the module
(`items?_eq`).
-/

namespace CircuitQir.Bitcode

open Ir Bitstream

/-! ## Lookups that can fail -/

/-- How far a number lies back from `next`, unless it lies ahead. -/
def back? (next id : Nat) : Option Nat := if id ≤ next then some (next - id) else none

theorem back?_eq {next id : Nat} (h : id ≤ next) : back? next id = some (next - id) :=
  if_pos h

theorem idxOf?_of_mem {α : Type} [DecidableEq α] {x : α} {xs : List α} (h : x ∈ xs) :
    xs.idxOf? x = some (xs.idxOf x) := by
  obtain ⟨i, hi⟩ := Option.isSome_iff_exists.mp (List.isSome_idxOf?.mpr h)
  rw [List.idxOf_eq_getD_idxOf?, hi]
  rfl

/-- Where no element fails, a list does not. -/
theorem mapM_some {α β : Type} {f : α → Option β} {g : α → β} {xs : List α}
    (h : ∀ x ∈ xs, f x = some (g x)) : xs.mapM f = some (xs.map g) := by
  induction xs with
  | nil => rfl
  | cons x xs ih =>
    obtain ⟨hx, hxs⟩ := List.forall_mem_cons.mp h
    rw [List.mapM_cons, hx, ih hxs]
    rfl

namespace Layout

/-- The number of a type, if it has one. -/
def typeId? (l : Layout) (t : StoredType) : Option Nat := l.types.idxOf? t

/-- The number of a constant, if it has one. -/
def constantId? (l : Layout) (c : Constant) : Option Nat :=
  (l.constants.idxOf? c).map (l.callables.length + ·)

variable {l : Layout}

theorem typeId?_eq {t : StoredType} (h : t ∈ l.types) : l.typeId? t = some (l.typeId t) :=
  idxOf?_of_mem h

theorem constantId?_eq {c : Constant} (h : c ∈ l.constants) :
    l.constantId? c = some (l.constantId c) := by
  rw [constantId?, idxOf?_of_mem h]
  rfl

end Layout

/-! ## A writer that can fail -/

/-- The record of a type. -/
def typeItem? (l : Layout) : StoredType → Option Item
  | .function result params => do
    let result ← l.typeId? (.ofResult result)
    let params ← params.mapM fun p => l.typeId? (.ofValueType p)
    return .record TypeCode.function (0 :: result :: params)
  | t => some (typeItem l t)

def typesItem? (l : Layout) : Option Item := do
  let types ← l.types.mapM (typeItem? l)
  return .block BlockId.types 4 (.record TypeCode.count [l.types.length] :: types)

/-- The records of functions whose names start at an offset of the string table. -/
def functionItems? (l : Layout) (groups : List AttributeGroup) (offset : Nat) :
    List Callable → Option (List Item)
  | [] => some []
  | c :: cs => do
    let size := (Utf8.encode c.name).length
    let type ← l.typeId? c.type
    let items ← functionItems? l groups (offset + size) cs
    return .record ModuleCode.function
        ([offset, size, type, 0, c.isDeclaration.toNat, 0, attributeList groups c.attributes] ++
          List.replicate 12 0) ::
      items

/-- The record of a constant. -/
def constantItem? (l : Layout) : Constant → Option Item
  | .pointer p => do
    let type ← l.typeId? (.int 64)
    let address ← l.constantId? (.ofAddress p)
    return .record ConstantCode.cast [ConstantCode.integerToPointer, type, address]
  | c => some (constantItem l c)

/-- The records of constants when constants of the given type came last. -/
def constantItems? (l : Layout) (current : Option StoredType) :
    List Constant → Option (List Item)
  | [] => some []
  | c :: cs => do
    let type ← l.typeId? c.type
    let item ← constantItem? l c
    let items ← constantItems? l (some c.type) cs
    return (if current = some c.type then [] else [.record ConstantCode.setType [type]]) ++
      item :: items

def constantsItem? (l : Layout) : Option (List Item) :=
  if l.constants.isEmpty then some []
  else do return [.block BlockId.constants 4 (← constantItems? l none l.constants)]

/-- The node of a flag, by the strings and the constants that are written ahead of it. -/
def flagNode? (keys : List String) (values : List Constant) (f : ModuleFlag) : Option Item := do
  let behavior ← values.idxOf? (.ofBehavior f.behavior)
  let key ← keys.idxOf? f.key
  let value ← values.idxOf? (.ofFlagValue f.value)
  return .record MetadataCode.node [keys.length + behavior + 1, key + 1, keys.length + value + 1]

/-- The record of a constant among the metadata. -/
def flagValue? (l : Layout) (c : Constant) : Option Item := do
  return .record MetadataCode.value [← l.typeId? c.type, ← l.constantId? c]

def flagItems? (l : Layout) (flags : List ModuleFlag) : Option (List Item) :=
  if flags.isEmpty then some []
  else do
    let keys := flagKeys flags
    let values := flagValues flags
    let valueItems ← values.mapM (flagValue? l)
    let nodes ← flags.mapM (flagNode? keys values)
    return [ .block BlockId.metadata 3
      (keys.map (.text MetadataCode.string []) ++ valueItems ++ nodes ++
        [.text MetadataCode.name [] flagListName,
          .record MetadataCode.namedNode
            ((List.range flags.length).map (keys.length + values.length + ·))]) ]

/-- How far a call counts back to its callee: not at all if that is no function of the module. -/
def calleeBack? (l : Layout) (next : Nat) (callee : String) : Option Nat :=
  match l.calleeId? callee with
  | some id => back? next id
  | none => some 0

/-- How far a call counts back to an argument. -/
def argumentBack? (l : Layout) (next : Nat) (a : Operand) : Option Nat := do
  back? next (← l.constantId? (.ofOperand a))

/-- The operands of a call with the given number. -/
def callOps? (l : Layout) (next : Nat) (callee : String) (args : List Operand) :
    Option (List Nat) := do
  let type ← l.typeId? (l.callType callee args)
  let back ← calleeBack? l next callee
  let backs ← args.mapM (argumentBack? l next)
  return [0, 2 ^ explicitTypeBit, type, back] ++ backs

/-- The records of instructions, the first of which has the given number. -/
def instructionItems? (l : Layout) (next : Nat) : List Instruction → Option (List Item)
  | [] => some []
  | .ret :: is => do return .record FunctionCode.ret [] :: (← instructionItems? l next is)
  | .call callee args :: is => do
    let ops ← callOps? l next callee args
    let items ← instructionItems? l (if l.returnsValue callee then next + 1 else next) is
    return .record FunctionCode.call ops :: items

/-- The block of a function body. -/
def bodyItem? (l : Layout) (f : Function) : Option Item := do
  let labels := labelItems 0 f.blocks
  let items ← instructionItems? l l.valueCount (f.blocks.flatMap (·.instructions))
  return .block BlockId.function 4
    (.record FunctionCode.blockCount [f.blocks.length] ::
      (items ++ if labels.isEmpty then [] else [.block BlockId.symbols 4 labels]))

def moduleItem? (l : Layout) (m : Module) : Option Item := do
  let types ← typesItem? l
  let functions ← functionItems? l m.attributeGroups 0 l.callables
  let constants ← constantsItem? l
  let flags ← flagItems? l m.flags
  let bodies ← m.functions.mapM (bodyItem? l)
  return .block BlockId.module 3
    ([.record ModuleCode.version [formatVersion]] ++ attributeItems m.attributeGroups ++
      [types, .text ModuleCode.sourceName [] m.sourceName] ++ functions ++ constants ++ flags ++
      bodies)

/-- The items of a module's bitcode, unless a lookup fails on the way. -/
def items? (m : Module) : Option (List Item) := do
  let l := Layout.ofModule m
  return [identificationItem, ← moduleItem? l m, stringTableItem l]

/-! ## Types and functions -/

theorem StoredType.ofValueType_mem (t : ValueType) : ofValueType t ∈ basic := by
  cases t <;> simp [ofValueType, basic]

theorem StoredType.ofResult_mem (result : Option ValueType) : ofResult result ∈ basic := by
  cases result with
  | none => simp [ofResult, basic]
  | some t => exact ofValueType_mem t

variable (m : Module)

theorem typeItem?_eq (t : StoredType) :
    typeItem? (.ofModule m) t = some (typeItem (.ofModule m) t) := by
  cases t with
  | function result params =>
    have hresult := Layout.typeId?_eq (Layout.basic_mem m (StoredType.ofResult_mem result))
    have hparams : params.mapM (fun p => (Layout.ofModule m).typeId? (.ofValueType p)) =
        some (params.map fun p => (Layout.ofModule m).typeId (.ofValueType p)) :=
      mapM_some fun p _ => Layout.typeId?_eq (Layout.basic_mem m (StoredType.ofValueType_mem p))
    rw [typeItem?, hresult, hparams]
    rfl
  | _ => rfl

theorem typesItem?_eq : typesItem? (.ofModule m) = some (typesItem (.ofModule m)) := by
  rw [typesItem?, mapM_some fun t _ => typeItem?_eq m t]
  rfl

theorem functionItems?_eq (groups : List AttributeGroup) : ∀ {cs : List Callable} (offset : Nat),
    cs ⊆ (Layout.ofModule m).callables →
    functionItems? (.ofModule m) groups offset cs =
      some (functionItems (.ofModule m) groups offset cs)
  | [], _, _ => rfl
  | c :: cs, offset, h => by
    obtain ⟨hc, hcs⟩ := List.cons_subset.mp h
    rw [functionItems?, Layout.typeId?_eq (Layout.callable_mem m hc),
      functionItems?_eq groups _ hcs]
    rfl

/-! ## Constants -/

/-- The integer that a pointer is cast from has a number if the pointer has. -/
theorem ofAddress_mem {p : UInt64} (h : .pointer p ∈ (Layout.ofModule m).constants) :
    Constant.ofAddress p ∈ (Layout.ofModule m).constants :=
  (Layout.mem_constants m).mpr (Layout.ofAddress_mem_named m ((Layout.mem_constants m).mp h))

theorem constantItem?_eq {c : Constant} (h : c ∈ (Layout.ofModule m).constants) :
    constantItem? (.ofModule m) c = some (constantItem (.ofModule m) c) := by
  cases c with
  | pointer p =>
    rw [constantItem?, Layout.typeId?_eq (Layout.basic_mem m (by decide)),
      Layout.constantId?_eq (ofAddress_mem m h)]
    rfl
  | _ => rfl

theorem constantItems?_eq : ∀ {cs : List Constant} (current : Option StoredType),
    cs ⊆ (Layout.ofModule m).constants →
    constantItems? (.ofModule m) current cs = some (constantItems (.ofModule m) current cs)
  | [], _, _ => rfl
  | c :: cs, current, h => by
    obtain ⟨hc, hcs⟩ := List.cons_subset.mp h
    rw [constantItems?, Layout.typeId?_eq (type_mem_of_mem_constants hc), constantItem?_eq m hc,
      constantItems?_eq _ hcs]
    rfl

theorem constantsItem?_eq :
    constantsItem? (.ofModule m) = some (constantsItem (.ofModule m)) := by
  unfold constantsItem? constantsItem
  split
  · rfl
  · rw [constantItems?_eq m none (List.Subset.refl _)]
    rfl

/-! ## Module flags -/

theorem flagValue?_eq {c : Constant} (h : c ∈ flagValues m.flags) :
    flagValue? (.ofModule m) c = some (.record MetadataCode.value
      [(Layout.ofModule m).typeId c.type, (Layout.ofModule m).constantId c]) := by
  obtain ⟨f, hf, hc⟩ := List.mem_flatMap.mp (List.mem_eraseDups.mp h)
  have hmem := Layout.flagConstants_mem m hf hc
  rw [flagValue?, Layout.typeId?_eq (type_mem_of_mem_constants hmem), Layout.constantId?_eq hmem]
  rfl

theorem flagNode?_eq {flags : List ModuleFlag} {f : ModuleFlag} (h : f ∈ flags) :
    flagNode? (flagKeys flags) (flagValues flags) f = some (.record MetadataCode.node
      [(flagKeys flags).length + (flagValues flags).idxOf (.ofBehavior f.behavior) + 1,
        (flagKeys flags).idxOf f.key + 1,
        (flagKeys flags).length + (flagValues flags).idxOf (.ofFlagValue f.value) + 1]) := by
  have hkey : f.key ∈ flagKeys flags := List.mem_eraseDups.mpr (List.mem_map_of_mem h)
  have hvalues : ∀ c ∈ flagConstants f, c ∈ flagValues flags := fun c hc =>
    List.mem_eraseDups.mpr (List.mem_flatMap.mpr ⟨f, h, hc⟩)
  rw [flagNode?, idxOf?_of_mem (hvalues _ (by simp [flagConstants])), idxOf?_of_mem hkey,
    idxOf?_of_mem (hvalues _ (by simp [flagConstants]))]
  rfl

theorem flagItems?_eq :
    flagItems? (.ofModule m) m.flags = some (flagItems (.ofModule m) m.flags) := by
  unfold flagItems? flagItems
  split
  · rfl
  · dsimp only
    rw [mapM_some fun c hc => flagValue?_eq m hc, mapM_some fun f hf => flagNode?_eq hf]
    rfl

/-! ## Function bodies -/

section Bodies

variable {m} {next : Nat} (hnext : (Layout.ofModule m).valueCount ≤ next)
include hnext

/-- Functions have smaller numbers than calls. -/
theorem calleeId_lt {callee : String} {id : Nat}
    (h : (Layout.ofModule m).calleeId? callee = some id) : id < next := by
  obtain ⟨hid, -⟩ := List.findIdx?_eq_some_iff_getElem.mp h
  unfold Layout.valueCount at hnext
  omega

/-- Arguments have smaller numbers than calls. -/
theorem argumentId_lt {callee : String} {args : List Operand}
    (h : .call callee args ∈ m.instructions) {a : Operand} (ha : a ∈ args) :
    (Layout.ofModule m).constantId (.ofOperand a) < next :=
  Nat.lt_of_lt_of_le (Layout.constantId_lt (Layout.ofOperand_mem m h ha)) hnext

theorem callOps?_eq {callee : String} {args : List Operand}
    (h : .call callee args ∈ m.instructions) :
    callOps? (.ofModule m) next callee args = some (callOps (.ofModule m) next callee args) := by
  have hback : ∀ a ∈ args, argumentBack? (.ofModule m) next a =
      some (next - (Layout.ofModule m).constantId (.ofOperand a)) := by
    intro a ha
    rw [argumentBack?, Layout.constantId?_eq (Layout.ofOperand_mem m h ha)]
    exact back?_eq (Nat.le_of_lt (argumentId_lt hnext h ha))
  rw [callOps?, Layout.typeId?_eq (Layout.callType_mem m h), mapM_some hback, calleeBack?, callOps]
  cases hid : (Layout.ofModule m).calleeId? callee with
  | none => rfl
  | some id =>
    dsimp only
    rw [back?_eq (Nat.le_of_lt (calleeId_lt hnext hid))]
    rfl

end Bodies

theorem instructionItems?_eq : ∀ {is : List Instruction} {next : Nat},
    (Layout.ofModule m).valueCount ≤ next → is ⊆ m.instructions →
    instructionItems? (.ofModule m) next is = some (instructionItems (.ofModule m) next is)
  | [], _, _, _ => rfl
  | .ret :: is, next, hnext, h => by
    rw [instructionItems?, instructionItems?_eq hnext (List.cons_subset.mp h).2]
    rfl
  | .call callee args :: is, next, hnext, h => by
    obtain ⟨hi, his⟩ := List.cons_subset.mp h
    have hrest : (Layout.ofModule m).valueCount ≤
        if (Layout.ofModule m).returnsValue callee then next + 1 else next := by
      split <;> omega
    rw [instructionItems?, callOps?_eq hnext hi, instructionItems?_eq hrest his]
    rfl

/-- The instructions of a function of a module are instructions of the module. -/
theorem instructions_subset {f : Function} (hf : f ∈ m.functions) :
    f.blocks.flatMap (·.instructions) ⊆ m.instructions :=
  fun _ hi => List.mem_flatMap.mpr ⟨f, hf, hi⟩

theorem bodyItem?_eq {f : Function} (hf : f ∈ m.functions) :
    bodyItem? (.ofModule m) f = some (bodyItem (.ofModule m) f) := by
  rw [bodyItem?, instructionItems?_eq m (Nat.le_refl _) (instructions_subset m hf)]
  rfl

/-! ## The whole file -/

theorem moduleItem?_eq :
    moduleItem? (.ofModule m) m = some (moduleItem (.ofModule m) m) := by
  rw [moduleItem?, typesItem?_eq, functionItems?_eq m _ _ (List.Subset.refl _),
    constantsItem?_eq, flagItems?_eq, mapM_some fun f hf => bodyItem?_eq m hf]
  rfl

/-- Whatever the module, no lookup fails and no difference is negative. -/
theorem items?_eq : items? m = some (items m) := by
  rw [items?, moduleItem?_eq]
  rfl

end CircuitQir.Bitcode
