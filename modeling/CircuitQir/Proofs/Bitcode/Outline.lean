import CircuitQir.Proofs.Bitcode.Filling
/-!
# What bitcode shows of a module

The bitcode of a module says less than the module does. It names the list of a function's
attributes, so an id without a group looks like none; it runs the strings of an attribute group
together, so a zero inside a string looks like the end of one; and it gives the instructions of a
function in one go, so it does not say in which block they lie. `Outline` is what is left, and
nothing but the outline goes into the bitcode (`encode_eq_of_outline`).
-/

namespace CircuitQir.Bitcode

open Ir Bitstream

/-- What bitcode shows of a module. -/
structure Outline where
  sourceName : String
  /-- Declarations and functions without their attribute ids, each with the number of its list. -/
  callables : List (Callable × Nat)
  /-- The labels and the instructions of each function. -/
  bodies : List (List String × List Instruction)
  /-- The operands of the records of the attribute groups. -/
  groups : List (List Nat)
  flags : List ModuleFlag

namespace Callable

/-- The function without its attributes. -/
def bare (c : Callable) : Callable := { c with attributes := none }

/-- What bitcode shows of a function record. -/
def outline (groups : List AttributeGroup) (c : Callable) : Callable × Nat :=
  (c.bare, attributeList groups c.attributes)

end Callable

/-- What bitcode shows of the body of a function. -/
def bodyOutline (f : Function) : List String × List Instruction :=
  (f.blocks.map (·.label), f.blocks.flatMap (·.instructions))

/-- The outline of a module. -/
def Outline.ofModule (m : Module) : Outline where
  sourceName := m.sourceName
  callables := (Callable.all m).map (Callable.outline m.attributeGroups)
  bodies := m.functions.map bodyOutline
  groups := m.attributeGroups.map groupOps
  flags := m.flags

/-! ## Numbering -/

namespace Layout

/-- The layout with the attributes of functions left out. No number depends on them. -/
def bare (l : Layout) : Layout := { l with callables := l.callables.map Callable.bare }

variable (l : Layout)

theorem calleeId?_bare (name : String) : l.bare.calleeId? name = l.calleeId? name := by
  rw [calleeId?, bare, List.findIdx?_map]
  rfl

theorem constantId_bare (c : Constant) : l.bare.constantId c = l.constantId c := by
  rw [constantId, bare, List.length_map]
  rfl

theorem valueCount_bare : l.bare.valueCount = l.valueCount := by
  rw [valueCount, bare, List.length_map]
  rfl

theorem callType_bare (callee : String) (args : List Operand) :
    l.bare.callType callee args = l.callType callee args := by
  have hfind : l.bare.callables.find? (·.name == callee) =
      (l.callables.find? (·.name == callee)).map Callable.bare := List.find?_map ..
  rw [callType, hfind, callType]
  cases l.callables.find? (·.name == callee) <;> rfl

theorem returnsValue_bare (callee : String) : l.bare.returnsValue callee = l.returnsValue callee := by
  have hfind : l.bare.callables.find? (·.name == callee) =
      (l.callables.find? (·.name == callee)).map Callable.bare := List.find?_map ..
  rw [returnsValue, hfind, returnsValue]
  cases l.callables.find? (·.name == callee) <;> rfl

theorem stringTable_bare : l.bare.stringTable = l.stringTable := by
  rw [stringTable, bare, List.flatMap_map]
  rfl

/-- Layouts depend on functions, flags and instructions alone. -/
theorem bare_ofModule {m n : Module}
    (hcallables : (Callable.all m).map Callable.bare = (Callable.all n).map Callable.bare)
    (hflags : m.flags = n.flags) (hinstructions : m.instructions = n.instructions) :
    (ofModule m).bare = (ofModule n).bare := by
  have htypes : (Callable.all m).map Callable.type = (Callable.all n).map Callable.type := by
    have := congrArg (List.map Callable.type) hcallables
    rwa [List.map_map, List.map_map] at this
  have hany (callee : String) : (Callable.all m).any (·.name == callee) =
      (Callable.all n).any (·.name == callee) := by
    have := congrArg (List.any · (·.name == callee)) hcallables
    rwa [List.any_map, List.any_map] at this
  simp only [bare, ofModule, hcallables, hflags, hinstructions, htypes, hany]

end Layout

/-! ## Items -/

section Items

variable (l : Layout)

theorem typeItem_bare (s : StoredType) : typeItem l.bare s = typeItem l s := by
  cases s <;> rfl

theorem typesItem_bare : typesItem l.bare = typesItem l := by
  rw [typesItem, typesItem, funext (typeItem_bare l)]
  rfl

theorem constantItem_bare (c : Constant) : constantItem l.bare c = constantItem l c := by
  cases c with
  | pointer p => rw [constantItem, constantItem, l.constantId_bare]; rfl
  | int | double | null => rfl

theorem constantItems_bare : ∀ (cs : List Constant) (current : Option StoredType),
    constantItems l.bare current cs = constantItems l current cs
  | [], _ => rfl
  | c :: cs, current => by
    rw [constantItems, constantItems, constantItem_bare, constantItems_bare cs]
    rfl

theorem constantsItem_bare : constantsItem l.bare = constantsItem l := by
  rw [constantsItem, constantsItem, constantItems_bare]
  rfl

theorem flagItems_bare (flags : List ModuleFlag) : flagItems l.bare flags = flagItems l flags := by
  simp only [flagItems, l.constantId_bare]
  rfl

theorem callOps_bare (next : Nat) (callee : String) (args : List Operand) :
    callOps l.bare next callee args = callOps l next callee args := by
  simp only [callOps, l.calleeId?_bare, l.callType_bare, l.constantId_bare]
  rfl

theorem instructionItems_bare : ∀ (is : List Instruction) (next : Nat),
    instructionItems l.bare next is = instructionItems l next is
  | [], _ => rfl
  | .ret :: is, next => by
    rw [instructionItems, instructionItems, instructionItems_bare is]
  | .call callee args :: is, next => by
    rw [instructionItems, instructionItems, callOps_bare, l.returnsValue_bare,
      instructionItems_bare is]

/-- Bodies with the same outline have the same items. -/
theorem bodyItem_congr {f g : Function} (h : bodyOutline f = bodyOutline g) :
    bodyItem l.bare f = bodyItem l g := by
  obtain ⟨hlabels, hinstructions⟩ := Prod.mk.inj h
  have hlength := congrArg List.length hlabels
  rw [List.length_map, List.length_map] at hlength
  rw [bodyItem, bodyItem, instructionItems_bare, l.valueCount_bare, labelItems_congr 0 hlabels,
    hinstructions, hlength]

theorem bodyItems_congr : ∀ {fs gs : List Function}, fs.map bodyOutline = gs.map bodyOutline →
    fs.map (bodyItem l.bare) = gs.map (bodyItem l)
  | [], [], _ => rfl
  | f :: fs, g :: gs, h => by
    obtain ⟨hbody, h⟩ := List.cons.inj h
    rw [List.map_cons, List.map_cons, bodyItem_congr l hbody, bodyItems_congr h]

end Items

/-! ## Attributes -/

section Attributes

variable {groups groups' : List AttributeGroup}

/-- Groups with the same records have the same items. -/
theorem attributeItems_congr (h : groups.map groupOps = groups'.map groupOps) :
    attributeItems groups = attributeItems groups' := by
  have hitems (gs : List AttributeGroup) : attributeItems gs =
      if (gs.map groupOps).isEmpty then [] else
        [ .block BlockId.attributeGroups 3 ((gs.map groupOps).map (.record AttributeCode.group)),
          .block BlockId.attributeLists 3 ((gs.map groupOps).map fun ops =>
            .record AttributeCode.list (ops.take 1)) ] := by
    rw [attributeItems, List.isEmpty_map, List.map_map, List.map_map]
    rfl
  rw [hitems, hitems, h]

/-- The list of an id depends on the records of the groups alone. -/
theorem attributeList_congr (h : groups.map groupOps = groups'.map groupOps) :
    attributeList groups = attributeList groups' := by
  funext id
  have hindex (gs : List AttributeGroup) (id : UInt32) :
      gs.findIdx? (·.id == id) = (gs.map groupOps).findIdx? (·.head? == some (id.toNat + 1)) := by
    rw [List.findIdx?_map]
    congr 1
    funext g
    rw [Bool.eq_iff_iff, beq_iff_eq, Function.comp_apply, beq_iff_eq, groupOps, List.head?_cons,
      storedGroupId, Option.some_inj, Nat.add_right_cancel_iff, UInt32.toNat_inj]
  rw [attributeList, attributeList]
  simp only [hindex, h]

/-- The records of functions show no more of their attributes than the outline. -/
theorem functionItems_congr (l : Layout) : ∀ {cs ds : List Callable} (offset : Nat),
    cs.map (Callable.outline groups) = ds.map (Callable.outline groups') →
    functionItems l.bare groups offset cs = functionItems l groups' offset ds
  | [], [], _, _ => rfl
  | c :: cs, d :: ds, offset, h => by
    obtain ⟨hhead, h⟩ := List.cons.inj h
    obtain ⟨hbare, hlist⟩ := Prod.mk.inj hhead
    obtain ⟨hname, hresult, hparams, hdeclaration, -⟩ := Callable.mk.inj hbare
    have htype : c.type = d.type := by rw [Callable.type, hresult, hparams, Callable.type]
    rw [functionItems, functionItems, hname, htype, hdeclaration, hlist, functionItems_congr l _ h]
    rfl

end Attributes

/-! ## Modules -/

theorem bare_eq_of_outline {m n : Module} (h : Outline.ofModule m = Outline.ofModule n) :
    (Layout.ofModule m).bare = (Layout.ofModule n).bare := by
  have hcallables := congrArg (fun o : Outline => o.callables.map Prod.fst) h
  have hinstructions := congrArg (fun o : Outline => o.bodies.flatMap Prod.snd) h
  simp only [Outline.ofModule, List.map_map, List.flatMap_map] at hcallables hinstructions
  exact Layout.bare_ofModule hcallables (congrArg Outline.flags h) hinstructions

theorem moduleItem_congr {m n : Module} (h : Outline.ofModule m = Outline.ofModule n) :
    moduleItem (Layout.ofModule m) m = moduleItem (Layout.ofModule n) n := by
  have hbare := bare_eq_of_outline h
  have hsource : m.sourceName = n.sourceName := congrArg Outline.sourceName h
  have hflags : m.flags = n.flags := congrArg Outline.flags h
  have hgroups : m.attributeGroups.map groupOps = n.attributeGroups.map groupOps :=
    congrArg Outline.groups h
  have htypes : typesItem (Layout.ofModule m) = typesItem (Layout.ofModule n) := by
    rw [← typesItem_bare, hbare, typesItem_bare]
  have hfunctions : functionItems (Layout.ofModule m) m.attributeGroups 0 (Callable.all m) =
      functionItems (Layout.ofModule n) n.attributeGroups 0 (Callable.all n) := by
    rw [← functionItems_congr _ 0 rfl, hbare,
      functionItems_congr _ 0 (congrArg Outline.callables h)]
  have hconstants : constantsItem (Layout.ofModule m) = constantsItem (Layout.ofModule n) := by
    rw [← constantsItem_bare, hbare, constantsItem_bare]
  have hflagItems : flagItems (Layout.ofModule m) m.flags =
      flagItems (Layout.ofModule n) n.flags := by
    rw [← flagItems_bare, hbare, flagItems_bare, hflags]
  have hbodies : m.functions.map (bodyItem (Layout.ofModule m)) =
      n.functions.map (bodyItem (Layout.ofModule n)) := by
    rw [← bodyItems_congr _ rfl, hbare, bodyItems_congr _ (congrArg Outline.bodies h)]
  rw [moduleItem, moduleItem, attributeItems_congr hgroups, htypes, hsource,
    Layout.callables_ofModule, Layout.callables_ofModule, hfunctions, hconstants, hflagItems,
    hbodies]

/-- Modules with the same outline have the same bitcode. -/
theorem encode_eq_of_outline {m n : Module} (h : Outline.ofModule m = Outline.ofModule n) :
    encode m = encode n := by
  have hstrings : stringTableItem (Layout.ofModule m) = stringTableItem (Layout.ofModule n) := by
    rw [stringTableItem, stringTableItem, ← Layout.stringTable_bare, bare_eq_of_outline h,
      Layout.stringTable_bare]
  rw [encode, encode, items, items, moduleItem_congr h, hstrings]

end CircuitQir.Bitcode
