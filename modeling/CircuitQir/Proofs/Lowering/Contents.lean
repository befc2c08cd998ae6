import CircuitQir.Proofs.Lowering.Accounting
import CircuitQir.Proofs.Lowering.Modules
import CircuitQir.Proofs.Lowering.RoundTrip
/-!
# What a program consists of

A program is one function with one block: the runtime is initialized, every operation is called for
in the order of the circuit (`Operation.Becomes`), the registers are recorded bit by bit if they
are to be (`Circuit.records`), and the function returns. Nothing else is ever called
(`Circuit.lower_contents`). That a circuit becomes a program of calls is known
(`Circuit.toModule_eq_ok_iff`); what is left is what each call looks like. Bits are numbered across
all registers, and accounting has seen to it that the numbers fit into their words.
-/

namespace CircuitQir

open Ir

/-! ## Operations -/

/-- The call is the one an operation asks for: of the intrinsic for its kind and for how many
qubits and parameters it has, passed what the layout of that intrinsic says. The result it writes,
if any, is the bit's place counted from where its register starts. -/
structure Operation.Becomes (registers : List Register) (o : Operation) (x : Instruction) :
    Prop where
  call : ∃ i args, Intrinsic.find? o.kind (.ofOperation o) = some i ∧
    Passes registers o i.layout args ∧ x = .call i.name args
  target : ∀ t ∈ o.result, ∃ r, registers.find? (·.id = t.register) = some r ∧
    (r.globalIndex t.bit).toNat = r.offset.toNat + t.bit.toNat

/-- Whether an operation is called for: all are, but barriers only if they are asked for. -/
def Operation.isCalled (options : Options) (o : Operation) : Bool :=
  o.kind ≠ .barrier || options.emitBarriers

theorem Operation.isOmitted_eq (options : Options) (o : Operation) :
    o.isOmitted options = !o.isCalled options := by
  simp [isOmitted, isCalled]

/-- The operations that are called for. -/
def Circuit.called (c : Circuit) (o : Options) : List Operation :=
  c.operations.filter (·.isCalled o)

/-! ## Records -/

/-- The calls that record a register: how many bits it has, then each of them. -/
def Register.records (r : Register) : List Instruction :=
  .call Intrinsic.recordArray.name [.int (Int64.ofNat r.size.toNat), .null] ::
    r.addresses.map fun n => .call Intrinsic.recordResult.name [.pointer (UInt64.ofNat n), .null]

/-- The calls that record the registers of a circuit, if they are to be recorded and there is a
bit to record. -/
def Circuit.records (c : Circuit) (o : Options) : List Instruction :=
  if o.recordOutput ∧ 0 < Register.totalSize c.registers then c.registers.flatMap Register.records
  else []

theorem Register.length_records (r : Register) : r.records.length = 1 + r.size.toNat := by
  simp [records, addresses, Nat.add_comm]

theorem Register.length_flatMap_records : ∀ rs : List Register,
    (rs.flatMap records).length = rs.length + totalSize rs
  | [] => rfl
  | r :: rs => by
    rw [List.flatMap_cons, List.length_append, length_records, length_flatMap_records rs, totalSize,
      List.length_cons]
    omega

/-! ## Calls -/

/-- What an operation becomes, if its result has a place. -/
theorem Operation.Makes.becomes {registers : List Register} {o : Operation} {x : Call}
    (h : o.Makes registers x) (htarget : ∀ t ∈ o.result, ∃ r,
      registers.find? (·.id = t.register) = some r ∧
        (r.globalIndex t.bit).toNat = r.offset.toNat + t.bit.toNat) :
    o.Becomes registers x.instruction := by
  obtain ⟨hfind, -, hpasses⟩ := Operation.callOf_eq_ok h
  exact ⟨⟨x.intrinsic, x.args, hfind, hpasses, rfl⟩, htarget⟩

/-- A register whose bits have numbers of 32 bits is recorded under these numbers. -/
theorem Register.instructions_recordsOf {r : Register}
    (h : r.offset.toNat + r.size.toNat < 2 ^ 32) :
    (Call.recordsOf r).map Call.instruction = r.records := by
  have hbit : ∀ bit ∈ List.range r.size.toNat,
      indexOperand (r.globalIndex (UInt32.ofNat bit)) =
        .pointer (UInt64.ofNat (r.offset.toNat + bit)) := by
    intro bit hbit
    have hlt := List.mem_range.mp hbit
    have hvalue : (r.globalIndex (UInt32.ofNat bit)).toNat = r.offset.toNat + bit := by
      rw [Register.globalIndex, UInt32.toNat_add, UInt32.toNat_ofNat',
        Nat.mod_eq_of_lt (by omega : bit < 2 ^ 32)]
      exact Nat.mod_eq_of_lt (by omega)
    rw [indexOperand, ← hvalue, UInt64.ofNat_uInt32ToNat]
  rw [Call.recordsOf, List.map_cons, List.map_map, records, addresses, List.map_map]
  refine congrArg (_ :: ·) (List.map_congr_left fun bit hmem => ?_)
  simp only [Function.comp_apply, Call.instruction, Call.recordResult, hbit bit hmem]

/-! ## Programs -/

namespace Circuit

variable {c : Circuit} {o : Options} {r : Resources} {m : Module} {p : Program}

/-- The instructions of the module of a circuit. -/
theorem toModule_contents (hr : Resources.account c = .ok r) (h : c.toModule o r = .ok m) :
    ∃ b calls, m = EntryBlock.finish b r o.profile ∧
      List.Forall₂ (Operation.Becomes c.registers) (c.called o) calls ∧
      b.instructions =
        .call Intrinsic.initialization.name [.null] :: (calls ++ c.records o) := by
  have haccounted := Resources.accounted_of_account hr
  have htargets : ∀ x ∈ c.operations, ∀ t ∈ x.result,
      ∃ q, c.registers.find? (·.id = t.register) = some q ∧
        (q.globalIndex t.bit).toNat = q.offset.toNat + t.bit.toNat := by
    intro x hx t ht
    obtain ⟨q, hq, hbit⟩ :=
      (Resources.target_of_checkResult (haccounted.checkResult x hx)).2 t ht
    exact ⟨q, hq, haccounted.toNat_globalIndex (List.mem_of_find?_eq_some hq) hbit⟩
  have hregisters : ∀ q ∈ c.registers, q.offset.toNat + q.size.toNat < 2 ^ 32 := by
    intro q hq
    have hbounds := haccounted.laidOut.bounds hq
    have hlt := r.results.toNat_lt
    rw [haccounted.results] at hlt
    omega
  have hpositive : (o.recordOutput && decide (0 < r.results)) = true ↔
      o.recordOutput ∧ 0 < Register.totalSize c.registers := by
    rw [Bool.and_eq_true, decide_eq_true_eq, UInt32.lt_iff_toNat_lt, haccounted.results]
    exact Iff.rfl
  have hrecords : (c.recordCalls o r).map Call.instruction = c.records o := by
    simp only [recordCalls, records, hpositive]
    split
    · rw [List.map_flatMap]
      exact List.flatMap_congr fun q hq => Register.instructions_recordsOf (hregisters q hq)
    · rfl
  obtain ⟨calls, hcalls, rfl⟩ := toModule_eq_ok_iff.mp h
  have hcalled : c.operations.filter (!·.isOmitted o) = c.called o := by
    simp only [called, Operation.isOmitted_eq, Bool.not_not]
  rw [hcalled] at hcalls
  refine ⟨_, calls.map Call.instruction, rfl, ?_, ?_⟩
  · refine List.forall₂_map_right_iff.mpr ?_
    have hboth := (List.forall₂_and_left _ _).mpr
      ⟨fun x hx => htargets x (List.mem_of_mem_filter hx), hcalls⟩
    exact hboth.imp fun x y h => h.2.becomes h.1
  · rw [EntryBlock.instructions_callAll_start, List.map_cons, List.map_append, hrecords]
    rfl

/-- A program is one function with one block. After the runtime has been initialized, the block
has the calls of the operations and the records of the registers, and then it returns. -/
theorem lower_contents (h : c.lower o = .ok p) : ∃ f b calls,
    p.module.functions = [f] ∧ f.blocks = [b] ∧
      List.Forall₂ (Operation.Becomes c.registers) (c.called o) calls ∧
      b.instructions =
        .call Intrinsic.initialization.name [.null] :: (calls ++ c.records o) ++ [.ret] ∧
      b.instructions.length = 2 + (c.called o).length +
        if o.recordOutput ∧ 0 < Register.totalSize c.registers
        then c.registers.length + p.resources.results.toNat else 0 := by
  obtain ⟨r, m, hr, hm, -, rfl⟩ := lower_eq_ok h
  obtain ⟨b, calls, rfl, hcalls, hinstructions⟩ := toModule_contents hr hm
  refine ⟨_, ⟨"entry", b.instructions ++ [.ret]⟩, calls, rfl, rfl, hcalls,
    by rw [hinstructions], ?_⟩
  have hlength : (c.records o).length =
      if o.recordOutput ∧ 0 < Register.totalSize c.registers
      then c.registers.length + r.results.toNat else 0 := by
    rw [records]
    split
    · rw [Register.length_flatMap_records, (Resources.accounted_of_account hr).results]
    · rfl
  simp only [hinstructions, List.length_append, List.length_cons, List.length_nil, hlength,
    ← hcalls.length_eq]
  omega

/-- Four calls of operations and two of records, between the initialization and the return. -/
theorem lower_contents_of_rotatedPair : ∃ p f b,
    rotatedPair.lower .default = .ok p ∧ p.module.functions = [f] ∧ f.blocks = [b] ∧
      b.instructions.length = 8 := by
  have hlower := lower_of_toModule rotatedPair_shortBitcode account_rotatedPair rfl
  obtain ⟨f, b, calls, hf, hb, -, -, hlength⟩ := lower_contents hlower
  exact ⟨_, f, b, hlower, hf, hb, hlength⟩

end Circuit

end CircuitQir
