import CircuitQir.Proofs.Lowering.Modules
import CircuitQir.Proofs.Lowering.RoundTrip
import Mathlib.Data.List.Forall2
/-!
# What options change

An option changes what it is named for and nothing else (`Circuit.lower_options`). A circuit that
is lowered under some options is lowered under others as well, and the two modules are compared:
both are programs of calls (`Circuit.toModule_eq_ok_iff`), and without barriers, or without
records, the calls are the same less those that go. The comparison then rests on one law about
programs of any calls (`EntryBlock.without_programOf`): functions are declared in the order of
their first use, so leaving out all calls of some functions leaves out the declarations of these
and keeps the others in order; and the attributes for what cannot be undone stay because barriers
and records can be.
-/

namespace CircuitQir

open Ir

/-- The program of a module, with its renderings. -/
def Program.ofModule (m : Module) (r : Resources) : Program :=
  ⟨m, Assembly.print m, Bitcode.encode m, r⟩

/-! ## Deleting functions -/

namespace Ir

/-- Whether the instruction calls none of some functions. -/
def Instruction.avoids (names : List String) (x : Instruction) : Bool :=
  x.callee?.all (· ∉ names)

def Block.without (b : Block) (names : List String) : Block :=
  { b with instructions := b.instructions.filter (·.avoids names) }

def Function.without (f : Function) (names : List String) : Function :=
  { f with blocks := f.blocks.map (·.without names) }

/-- The module without the declarations of some functions and without the calls of them. -/
def Module.without (m : Module) (names : List String) : Module :=
  { m with
    declarations := m.declarations.filter (·.name ∉ names)
    functions := m.functions.map (·.without names) }

end Ir

namespace EntryBlock

theorem callAll_names (calls : List Call) (b : EntryBlock) :
    (b.callAll calls).sourceName = b.sourceName ∧ (b.callAll calls).entryPoint = b.entryPoint := by
  induction calls generalizing b with
  | nil => exact ⟨rfl, rfl⟩
  | cons c calls ih =>
    obtain ⟨hsource, hentry⟩ := ih (b.call c.intrinsic c.args)
    exact ⟨hsource.trans (declare_sourceName b _), hentry.trans (declare_entryPoint b _)⟩

section

variable (sourceName entryPoint : String) (calls : List Call) (r : Resources) (p : Profile)

/-- A program, field by field. -/
theorem programOf_eq : programOf sourceName entryPoint calls r p =
    { sourceName := sourceName
      declarations := (firstUses calls).map Intrinsic.declaration
      functions := [⟨entryPoint, none, some 0,
        [⟨"entry", (Call.initialization :: calls).map Call.instruction ++ [.ret]⟩]⟩]
      attributeGroups := entryPointGroup r p ::
        if ∃ c ∈ calls, c.intrinsic.attributes = .irreversible then [irreversibleGroup 1] else []
      flags := moduleFlags } := by
  obtain ⟨hsource, hentry⟩ := callAll_names calls (start sourceName entryPoint)
  have hdeclares := declares_callAll_start sourceName entryPoint calls
  rw [← attributeGroups_programOf sourceName entryPoint calls r p,
    ← instructions_callAll_start sourceName entryPoint calls, firstUses, ← hdeclares.declarations]
  rw [programOf, finish, hsource, hentry]
  rfl

theorem instructions_programOf : (programOf sourceName entryPoint calls r p).instructions =
    (Call.initialization :: calls).map Call.instruction ++ [.ret] := by
  rw [programOf, instructions_finish, instructions_callAll_start]

/-- Calls can be left out of a program after the fact, with the declarations of what they call. The
attributes stay what they are if the functions that go can be undone. -/
theorem without_programOf (names : List String)
    (hinitialization : Intrinsic.initialization.name ∉ names)
    (hreversible : ∀ i ∈ Intrinsic.catalog, i.name ∈ names → i.attributes ≠ .irreversible) :
    (programOf sourceName entryPoint calls r p).without names =
      programOf sourceName entryPoint (calls.filter (·.intrinsic.name ∉ names)) r p := by
  have hkept : (Call.initialization :: calls).filter (·.intrinsic.name ∉ names) =
      Call.initialization :: calls.filter (·.intrinsic.name ∉ names) :=
    List.filter_cons_of_pos (decide_eq_true hinitialization)
  -- What stays is first used in the order in which it was before.
  have hdeclarations : ((firstUses calls).map Intrinsic.declaration).filter (·.name ∉ names) =
      (firstUses (calls.filter (·.intrinsic.name ∉ names))).map Intrinsic.declaration := by
    rw [firstUses, firstUses, ← hkept, List.filter_map, ← eraseDups_filter, List.filter_map]
    rfl
  have hinstructions : ((Call.initialization :: calls).map Call.instruction ++
        [Instruction.ret]).filter (·.avoids names) =
      (Call.initialization :: calls.filter (·.intrinsic.name ∉ names)).map Call.instruction ++
        [.ret] := by
    rw [← hkept, List.filter_append, List.filter_map]
    rfl
  have hirreversible : (∃ x ∈ calls, x.intrinsic.attributes = .irreversible) ↔
      ∃ x ∈ calls.filter (·.intrinsic.name ∉ names), x.intrinsic.attributes = .irreversible := by
    simp only [List.mem_filter, decide_eq_true_eq]
    constructor
    · rintro ⟨x, hx, hattributes⟩
      exact ⟨x, ⟨hx, fun hname => hreversible _ x.listed hname hattributes⟩, hattributes⟩
    · rintro ⟨x, ⟨hx, -⟩, hattributes⟩
      exact ⟨x, hx, hattributes⟩
  simp only [programOf_eq, Module.without, List.map_singleton, Function.without, Block.without,
    hdeclarations, hinstructions, hirreversible]

end

end EntryBlock

/-! ## What operations become -/

/-- Only barriers become calls of the barrier. -/
theorem Intrinsic.eq_barrier_iff {kind : OperationKind} {a : Arity} {i : Intrinsic}
    (h : find? kind a = some i) : i = barrier ↔ kind = .barrier := by
  unfold find? at h
  split at h
  all_goals cases h
  all_goals
    first
      | exact iff_of_true rfl rfl
      | exact iff_of_false (by decide) nofun

namespace Operation

variable {registers : List Register} {o : Operation} {x : Call}

theorem Makes.listed (h : o.Makes registers x) : x.intrinsic ∈ Intrinsic.instructions :=
  (Intrinsic.serves_of_find? (callOf_eq_ok h).1).listed

theorem Makes.name_eq_barrier_iff (h : o.Makes registers x) :
    x.intrinsic.name = Intrinsic.barrier.name ↔ o.kind = .barrier := by
  rw [← Intrinsic.eq_barrier_iff (callOf_eq_ok h).1]
  have hbarrier : Intrinsic.barrier ∈ Intrinsic.catalog :=
    List.mem_append_left _ (by simp [Intrinsic.instructions])
  exact ⟨Intrinsic.eq_of_name_eq x.listed hbarrier, fun heq => heq ▸ rfl⟩

end Operation

/-- The names of the functions that record. -/
def recordNames : List String := [Intrinsic.recordArray.name, Intrinsic.recordResult.name]

theorem Operation.Makes.name_notMem_recordNames {registers : List Register} {o : Operation}
    {x : Call} (h : o.Makes registers x) : x.intrinsic.name ∉ recordNames := by
  have hno {i : Intrinsic} (hi : i ∈ Intrinsic.runtime) : x.intrinsic.name ≠ i.name :=
    Intrinsic.name_ne_of_listed h.listed hi
  simp only [recordNames, List.mem_cons, List.not_mem_nil, or_false, not_or]
  exact ⟨hno (by simp [Intrinsic.runtime]), hno (by simp [Intrinsic.runtime])⟩

/-- All calls of records are calls of functions that record. -/
theorem Circuit.intrinsic_of_mem_recordCalls {c : Circuit} {o : Options} {r : Resources} {x : Call}
    (hx : x ∈ c.recordCalls o r) :
    x.intrinsic = Intrinsic.recordArray ∨ x.intrinsic = Intrinsic.recordResult := by
  unfold recordCalls at hx
  split at hx
  · obtain ⟨q, -, hx⟩ := List.mem_flatMap.mp hx
    rcases List.mem_cons.mp hx with rfl | hx
    · exact .inl rfl
    · obtain ⟨bit, -, rfl⟩ := List.mem_map.mp hx
      exact .inr rfl
  · cases hx

namespace Circuit

variable {c : Circuit} {o : Options} {r : Resources} {m : Module}

/-! ## Barriers -/

/-- Leaving barriers out leaves out the calls of the barrier. -/
theorem makes_omitBarriers {calls : List Call} (h : List.Forall₂ (Operation.Makes c.registers)
      (c.operations.filter (!·.isOmitted o)) calls) :
    List.Forall₂ (Operation.Makes c.registers)
      (c.operations.filter (!·.isOmitted { o with emitBarriers := false }))
      (calls.filter (·.intrinsic.name ∉ [Intrinsic.barrier.name])) := by
  have hfilter : c.operations.filter (!·.isOmitted { o with emitBarriers := false }) =
      (c.operations.filter (!·.isOmitted o)).filter (·.kind ≠ .barrier) := by
    rw [List.filter_filter]
    refine List.filter_congr fun x _ => ?_
    simp +contextual [Operation.isOmitted]
  rw [hfilter]
  refine List.rel_filter ?_ h
  intro x y hmakes
  simp [hmakes.name_eq_barrier_iff]

theorem toModule_omitBarriers (h : c.toModule o r = .ok m) :
    c.toModule { o with emitBarriers := false } r =
      .ok (m.without [Intrinsic.barrier.name]) := by
  obtain ⟨calls, hcalls, rfl⟩ := toModule_eq_ok_iff.mp h
  refine toModule_eq_ok_iff.mpr ⟨_, makes_omitBarriers hcalls, ?_⟩
  have hrecords : (c.recordCalls o r).filter (·.intrinsic.name ∉ [Intrinsic.barrier.name]) =
      c.recordCalls o r := by
    refine List.filter_eq_self.mpr fun x hx => ?_
    rcases intrinsic_of_mem_recordCalls hx with hx | hx
    · rw [hx]
      decide
    · rw [hx]
      decide
  rw [EntryBlock.without_programOf _ _ _ _ _ _ (by decide) (by decide +kernel),
    List.filter_append, hrecords]
  rfl

/-! ## Records -/

/-- Without records, the block ends behind the calls of the operations. -/
theorem toModule_omitRecords (h : c.toModule o r = .ok m) :
    c.toModule { o with recordOutput := false } r = .ok (m.without recordNames) ∧
      ∃ kept records, m.instructions = kept ++ records ++ [.ret] ∧
        (m.without recordNames).instructions = kept ++ [.ret] ∧
        ∀ x ∈ records, ∃ name ∈ recordNames, x.callee? = some name := by
  obtain ⟨calls, hcalls, rfl⟩ := toModule_eq_ok_iff.mp h
  have hname {x : Call} (hx : x ∈ c.recordCalls o r) : x.intrinsic.name ∈ recordNames := by
    rcases intrinsic_of_mem_recordCalls hx with hx | hx
    · simp [hx, recordNames]
    · simp [hx, recordNames]
  -- Records are told from operations by the names of what they call, and by nothing else.
  have hkept : (calls ++ c.recordCalls o r).filter (·.intrinsic.name ∉ recordNames) = calls := by
    rw [List.filter_append]
    have hall : calls.filter (·.intrinsic.name ∉ recordNames) = calls := by
      refine List.filter_eq_self.mpr fun x hx => ?_
      obtain ⟨p, -, hmakes⟩ := exists_of_mem_right hcalls hx
      exact decide_eq_true hmakes.name_notMem_recordNames
    have hnone : (c.recordCalls o r).filter (·.intrinsic.name ∉ recordNames) = [] := by
      refine List.filter_eq_nil_iff.mpr fun x hx => ?_
      simp [hname hx]
    rw [hall, hnone, List.append_nil]
  have hwithout := EntryBlock.without_programOf (entryPointName c o) (entryPointName c o)
    (calls ++ c.recordCalls o r) r o.profile recordNames (by decide) (by decide +kernel)
  rw [hkept] at hwithout
  refine ⟨toModule_eq_ok_iff.mpr ⟨calls, hcalls, ?_⟩,
    (Call.initialization :: calls).map Call.instruction,
    (c.recordCalls o r).map Call.instruction, ?_, ?_, ?_⟩
  · rw [hwithout, recordCalls, Bool.false_and, if_neg Bool.false_ne_true, List.append_nil]
    rfl
  · rw [EntryBlock.instructions_programOf, ← List.map_append]
    rfl
  · rw [hwithout, EntryBlock.instructions_programOf]
  · intro x hx
    obtain ⟨y, hy, rfl⟩ := List.mem_map.mp hx
    exact ⟨y.intrinsic.name, hname hy, rfl⟩

/-! ## The profile and the name -/

/-- The profile is the value of one attribute of the entry point. -/
theorem toModule_profile (h : c.toModule o r = .ok m) : ∃ before after groups,
    m.attributeGroups =
        ⟨0, before ++ .keyValue "qir_profiles" o.profile.tag :: after⟩ :: groups ∧
      ∀ profile, c.toModule { o with profile } r = .ok { m with attributeGroups :=
        ⟨0, before ++ .keyValue "qir_profiles" profile.tag :: after⟩ :: groups } := by
  obtain ⟨calls, hcalls, rfl⟩ := toModule_eq_ok_iff.mp h
  refine ⟨[.flag "entry_point", .flag "output_labeling_schema"],
    [.keyValue "requiredQubits" (Numeral.ofNat r.qubits.toNat),
      .keyValue "requiredResults" (Numeral.ofNat r.results.toNat)], _, rfl, fun profile => ?_⟩
  exact toModule_eq_ok_iff.mpr ⟨calls, hcalls, rfl⟩

/-- The name of the entry point is that of its function, and of the source. -/
theorem toModule_entryPoint (h : c.toModule o r = .ok m) (entryPoint : Option String) :
    c.toModule { o with entryPoint } r = .ok { m with
      sourceName := entryPointName c { o with entryPoint }
      functions := m.functions.map
        fun f => { f with name := entryPointName c { o with entryPoint } } } := by
  obtain ⟨calls, hcalls, rfl⟩ := toModule_eq_ok_iff.mp h
  refine toModule_eq_ok_iff.mpr ⟨calls, hcalls, ?_⟩
  simp only [EntryBlock.programOf_eq]
  rfl

/-! ## Programs -/

variable {p : Program}

/-- What the options do to the program of a circuit. Barriers are called for or left out with their
declaration, and so are the records at the end of the block; a profile is the value of one
attribute, and a name that of the source and the function. All else stays as it is, in its order,
and the circuit is still lowered. -/
theorem lower_options (h : c.lower o = .ok p) :
    (c.ShortBitcode { o with emitBarriers := false } →
      c.lower { o with emitBarriers := false } =
        .ok (.ofModule (p.module.without [Intrinsic.barrier.name]) p.resources)) ∧
    (c.ShortBitcode { o with recordOutput := false } →
      c.lower { o with recordOutput := false } =
        .ok (.ofModule (p.module.without recordNames) p.resources)) ∧
    (∃ kept records, p.module.instructions = kept ++ records ++ [.ret] ∧
      (p.module.without recordNames).instructions = kept ++ [.ret] ∧
      ∀ x ∈ records, ∃ name ∈ recordNames, x.callee? = some name) ∧
    (∃ before after groups, p.module.attributeGroups =
        ⟨0, before ++ .keyValue "qir_profiles" o.profile.tag :: after⟩ :: groups ∧
      ∀ profile, c.ShortBitcode { o with profile } → c.lower { o with profile } =
        .ok (.ofModule { p.module with attributeGroups :=
          ⟨0, before ++ .keyValue "qir_profiles" profile.tag :: after⟩ :: groups } p.resources)) ∧
    ∀ entryPoint, c.ShortBitcode { o with entryPoint } → c.lower { o with entryPoint } =
      .ok (.ofModule { p.module with
        sourceName := entryPointName c { o with entryPoint }
        functions := p.module.functions.map
          fun f => { f with name := entryPointName c { o with entryPoint } } } p.resources) := by
  obtain ⟨r, m, hr, hm, -, rfl⟩ := lower_eq_ok h
  obtain ⟨hunrecorded, htrailing⟩ := toModule_omitRecords hm
  obtain ⟨before, after, groups, hgroups, hprofile⟩ := toModule_profile hm
  refine ⟨fun hshort => ?_, fun hshort => ?_, htrailing,
    ⟨before, after, groups, hgroups, fun profile hshort => ?_⟩, fun entryPoint hshort => ?_⟩
  · exact lower_of_toModule hshort hr (toModule_omitBarriers hm)
  · exact lower_of_toModule hshort hr hunrecorded
  · exact lower_of_toModule hshort hr (hprofile profile)
  · exact lower_of_toModule hshort hr (toModule_entryPoint hm entryPoint)

/-- Two measurements on both sides of a barrier, the second of a bit behind an empty register. -/
def dividedPair : Circuit where
  name := "pair"
  qubitCount := 2
  operations :=
    [⟨.barrier, [0, 1], [], [], none⟩, ⟨.measure, [0], [], [], some ⟨"a", 0⟩⟩,
      ⟨.barrier, [1], [], [], none⟩, ⟨.measure, [1], [], [], some ⟨"c", 0⟩⟩]
  registers := [⟨"a", 1, 0⟩, ⟨"b", 0, 1⟩, ⟨"c", 1, 1⟩]

theorem account_dividedPair : Resources.account dividedPair = .ok ⟨2, 2⟩ := by
  decide +kernel

theorem lower_options_of_dividedPair : ∃ p,
    dividedPair.lower ⟨.base, true, true, none⟩ = .ok p ∧
    dividedPair.lower ⟨.base, true, false, none⟩ =
      .ok (.ofModule (p.module.without [Intrinsic.barrier.name]) p.resources) ∧
    dividedPair.lower ⟨.base, false, true, none⟩ =
      .ok (.ofModule (p.module.without recordNames) p.resources) ∧
    (∃ p', dividedPair.lower ⟨.adaptive, true, true, none⟩ = .ok p') ∧
    (∃ p', dividedPair.lower ⟨.base, true, true, some "2"⟩ = .ok p') ∧
    p.module.instructions.length = 11 ∧
    (p.module.without [Intrinsic.barrier.name]).instructions.length = 9 ∧
    (p.module.without recordNames).instructions.length = 6 := by
  have hshort {o : Options} {m : Module} (hm : dividedPair.toModule o ⟨2, 2⟩ = .ok m)
      (h : (Bitcode.encode m).length < 2 ^ 34) : dividedPair.ShortBitcode o :=
    shortBitcode_of_length account_dividedPair hm h
  have hlower := lower_of_toModule (o := ⟨.base, true, true, none⟩)
    (hshort rfl (Bitcode.length_encode_lt_of_extent (by decide +kernel))) account_dividedPair rfl
  obtain ⟨hbarriers, hrecords, -, ⟨_, _, _, -, hprofile⟩, hentry⟩ := lower_options hlower
  refine ⟨_, hlower, hbarriers (hshort rfl ?_), hrecords (hshort rfl ?_),
    ⟨_, hprofile .adaptive (hshort rfl ?_)⟩, ⟨_, hentry (some "2") (hshort rfl ?_)⟩, rfl, rfl, rfl⟩
  · exact Bitcode.length_encode_lt_of_extent (by decide +kernel)
  · exact Bitcode.length_encode_lt_of_extent (by decide +kernel)
  · exact Bitcode.length_encode_lt_of_extent (by decide +kernel)
  · exact Bitcode.length_encode_lt_of_extent (by decide +kernel)

end Circuit

end CircuitQir
