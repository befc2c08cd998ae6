import CircuitQir.Lowering.Catalog
import CircuitQir.Lowering.Profile
import CircuitQir.Lowering.Resources
/-!
# Assembling a program

A program has one function with one block. An `EntryBlock` collects the calls of that block and
declares each intrinsic at its first call. It starts with the call that initializes the runtime.

What is declared is looked up in a map of its own, which goes along with the list of declarations:
it has the name of each, and its place in the list.
-/

namespace CircuitQir

open Ir

/-- A map from names to places, as a list of its entries. -/
abbrev Places := List (String × Nat)

namespace Places

/-- Whether a name has an entry. -/
def contains (ps : Places) (name : String) : Bool := (ps.lookup name).isSome

/-- The map with an entry for a name, in place of one that it may have had. -/
def insert (ps : Places) (name : String) (place : Nat) : Places :=
  (name, place) :: ps.filter (·.1 ≠ name)

end Places

/-- A program to which calls are added. -/
structure EntryBlock where
  sourceName : String
  entryPoint : String
  declarations : List Declaration
  /-- The places of the declarations by their names. -/
  declared : Places
  instructions : List Instruction
deriving DecidableEq

namespace Intrinsic

/-- The declaration of an intrinsic. -/
def declaration (i : Intrinsic) : Declaration :=
  ⟨i.name, i.params, i.result, i.attributes.groupId?⟩

end Intrinsic

namespace EntryBlock

/-- Declares an intrinsic unless its name is declared. -/
def declare (b : EntryBlock) (i : Intrinsic) : EntryBlock :=
  if b.declared.contains i.name then b
  else
    { b with
      declared := b.declared.insert i.name b.declarations.length
      declarations := b.declarations ++ [i.declaration] }

/-- Adds a call. -/
def call (b : EntryBlock) (i : Intrinsic) (args : List Operand) : EntryBlock :=
  let b := b.declare i
  { b with instructions := b.instructions ++ [.call i.name args] }

/-- A program without calls. -/
def empty (sourceName entryPoint : String) : EntryBlock := ⟨sourceName, entryPoint, [], [], []⟩

/-- A program that only initializes the runtime. -/
def start (sourceName entryPoint : String) : EntryBlock :=
  (empty sourceName entryPoint).call Intrinsic.initialization [.null]

/-- How many calls have been added, the first included. -/
def length (b : EntryBlock) : Nat := b.instructions.length

/-- The attributes of the entry point. -/
def entryPointGroup (r : Resources) (p : Profile) : AttributeGroup :=
  ⟨AttributeSet.entryPoint.groupId?.getD 0,
    [.flag "entry_point", .flag "output_labeling_schema", .keyValue "qir_profiles" p.tag,
      .keyValue "requiredQubits" (Numeral.ofNat r.qubits.toNat),
      .keyValue "requiredResults" (Numeral.ofNat r.results.toNat)]⟩

/-- The attributes of intrinsics that cannot be undone. -/
def irreversibleGroup (id : UInt32) : AttributeGroup := ⟨id, [.flag "irreversible"]⟩

/-- The id of that group if a declaration refers to it. -/
def irreversibleId? (b : EntryBlock) : Option UInt32 :=
  AttributeSet.irreversible.groupId?.filter fun id => b.declarations.any (·.attributes = some id)

/-- The flags of every program. -/
def moduleFlags : List ModuleFlag :=
  [⟨1, "qir_major_version", .i32 1⟩, ⟨7, "qir_minor_version", .i32 0⟩,
    ⟨1, "dynamic_qubit_management", .bool false⟩,
    ⟨1, "dynamic_result_management", .bool false⟩]

/-- The finished program: the block ends with a return. The group of irreversible intrinsics is
there only if one is declared. -/
def finish (b : EntryBlock) (r : Resources) (p : Profile) : Module :=
  { sourceName := b.sourceName
    declarations := b.declarations
    functions :=
      [⟨b.entryPoint, none, AttributeSet.entryPoint.groupId?,
        [⟨"entry", b.instructions ++ [.ret]⟩]⟩]
    attributeGroups := entryPointGroup r p :: (b.irreversibleId?.map irreversibleGroup).toList
    flags := moduleFlags }

end EntryBlock

end CircuitQir
