import CircuitQir.Proofs.Lowering.Finished
/-!
# Programs of any calls

A program can be made of any calls of intrinsics in the catalog, in any order and with arguments
that need not suit (`programOf`). Its declarations and attributes follow from its calls: it declares
the intrinsics called, with all but the first of equal ones left out, and its map has their places
(`Declares.callAll`).
-/

namespace CircuitQir

open Ir

/-- A call of an intrinsic of the catalog, with any arguments. -/
structure Call where
  intrinsic : Intrinsic
  args : List Operand
  listed : intrinsic ∈ Intrinsic.catalog

namespace Call

def instruction (c : Call) : Instruction := .call c.intrinsic.name c.args

/-- The call that every program begins with. -/
def initialization : Call :=
  ⟨Intrinsic.initialization, [.null], Intrinsic.initialization_mem_catalog⟩

end Call

namespace AttributeSet

theorem groupId?_eq_one_iff {s : AttributeSet} : s.groupId? = some 1 ↔ s = irreversible := by
  unfold groupId?
  split
  · rename_i hentry
    subst hentry
    decide
  · split
    · rename_i hs
      simp [hs]
    · rename_i hs
      simp [hs]

end AttributeSet

namespace EntryBlock

variable {b : EntryBlock} {is : List Intrinsic}

/-! ## Calls -/

/-- A program after further calls. -/
def callAll (b : EntryBlock) (calls : List Call) : EntryBlock :=
  calls.foldl (fun b c => b.call c.intrinsic c.args) b

theorem Declares.callAll (h : b.Declares is) (calls : List Call) :
    (b.callAll calls).Declares (is ++ calls.map Call.intrinsic) := by
  induction calls generalizing b is with
  | nil => rwa [List.map_nil, List.append_nil]
  | cons c calls ih =>
    rw [List.map_cons, List.append_cons]
    exact ih (h.call c.listed c.args)

theorem callAll_instructions (calls : List Call) (b : EntryBlock) :
    (b.callAll calls).instructions = b.instructions ++ calls.map Call.instruction := by
  induction calls generalizing b with
  | nil => exact (List.append_nil _).symm
  | cons c calls ih =>
    rw [List.map_cons, List.append_cons, Call.instruction, ← call_instructions]
    exact ih (b.call c.intrinsic c.args)

/-! ## Finished programs -/

/-- The group of irreversible intrinsics is referred to if there is one among those declared. -/
theorem Declares.any_attributes (h : b.Declares is) :
    b.declarations.any (·.attributes = some 1) = true ↔
      ∃ i ∈ is, i.attributes = .irreversible := by
  rw [List.any_eq_true]
  constructor
  · rintro ⟨d, hd, hid⟩
    obtain ⟨i, hi, rfl⟩ := h.mem_iff.mp hd
    exact ⟨i, hi, AttributeSet.groupId?_eq_one_iff.mp (of_decide_eq_true hid)⟩
  · rintro ⟨i, hi, hirreversible⟩
    have hid : i.attributes.groupId? = some 1 := AttributeSet.groupId?_eq_one_iff.mpr hirreversible
    exact ⟨i.declaration, h.mem_iff.mpr ⟨i, hi, rfl⟩, decide_eq_true hid⟩

section

variable (sourceName entryPoint : String) (calls : List Call) (r : Resources) (p : Profile)

/-- The program that makes some calls after the initialization. -/
def programOf : Module :=
  ((start sourceName entryPoint).callAll calls).finish r p

/-- The intrinsics that the program calls, each where it is first called. -/
def firstUses : List Intrinsic :=
  ((Call.initialization :: calls).map Call.intrinsic).eraseDups

theorem declares_callAll_start : ((start sourceName entryPoint).callAll calls).Declares
    ((Call.initialization :: calls).map Call.intrinsic) :=
  (declares_start sourceName entryPoint).callAll calls

theorem instructions_callAll_start : ((start sourceName entryPoint).callAll calls).instructions =
    (Call.initialization :: calls).map Call.instruction :=
  callAll_instructions calls (start sourceName entryPoint)

/-- Of the calls, the initialization is not irreversible. -/
theorem attributeGroups_programOf : (programOf sourceName entryPoint calls r p).attributeGroups =
    entryPointGroup r p ::
      if ∃ c ∈ calls, c.intrinsic.attributes = .irreversible then [irreversibleGroup 1]
      else [] := by
  have hiff : (∃ i ∈ (Call.initialization :: calls).map Call.intrinsic,
      i.attributes = .irreversible) ↔ ∃ c ∈ calls, c.intrinsic.attributes = .irreversible := by
    have hinitialization : Intrinsic.initialization.attributes ≠ .irreversible := by decide
    rw [List.map_cons, List.exists_mem_cons_iff]
    simp only [List.mem_map, exists_exists_and_eq_and]
    exact or_iff_right hinitialization
  rw [programOf, attributeGroups_finish]
  simp only [(declares_callAll_start sourceName entryPoint calls).any_attributes, hiff]

/-- A program declares the intrinsics that it calls and nothing else, each once and as the catalog
has it, in the order in which they are first called. After any calls, the map that says what is
declared has the names of the declarations with their places, and no other name. All attributes that
the program refers to are there: those of the entry point under the id 0, and under the id 1, only
if it calls one, those of irreversible intrinsics. -/
theorem programOf_declarations :
    (programOf sourceName entryPoint calls r p).instructions =
        (Call.initialization :: calls).map Call.instruction ++ [.ret] ∧
      (programOf sourceName entryPoint calls r p).declarations =
        (firstUses calls).map Intrinsic.declaration ∧
      ((programOf sourceName entryPoint calls r p).declarations.map Declaration.name).Nodup ∧
      (∀ d, d ∈ (programOf sourceName entryPoint calls r p).declarations ↔
        ∃ c ∈ Call.initialization :: calls, d = c.intrinsic.declaration) ∧
      (∀ name n, ((start sourceName entryPoint).callAll calls).declared.lookup name = some n ↔
        ((programOf sourceName entryPoint calls r p).declarations.map Declaration.name)[n]? =
          some name) ∧
      ((programOf sourceName entryPoint calls r p).attributeGroups = entryPointGroup r p ::
        if ∃ c ∈ calls, c.intrinsic.attributes = .irreversible then [irreversibleGroup 1] else []) ∧
      (entryPointGroup r p).id = 0 ∧
      (∀ d ∈ (programOf sourceName entryPoint calls r p).declarations, ∀ id ∈ d.attributes,
        ∃ g ∈ (programOf sourceName entryPoint calls r p).attributeGroups, g.id = id) ∧
      ∀ f ∈ (programOf sourceName entryPoint calls r p).functions, ∀ id ∈ f.attributes,
        ∃ g ∈ (programOf sourceName entryPoint calls r p).attributeGroups, g.id = id := by
  have hdeclares := declares_callAll_start sourceName entryPoint calls
  refine ⟨?_, hdeclares.declarations, hdeclares.nodup, ?_, hdeclares.declared,
    attributeGroups_programOf sourceName entryPoint calls r p, rfl,
    declarations_resolved hdeclares.exists_eq, functions_resolved _ r p⟩
  · rw [programOf, instructions_finish, instructions_callAll_start]
  · intro d
    rw [programOf, finish, hdeclares.mem_iff]
    simp only [List.mem_map, exists_exists_and_eq_and]

end

end EntryBlock

end CircuitQir
