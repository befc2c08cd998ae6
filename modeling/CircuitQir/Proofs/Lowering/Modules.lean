import CircuitQir.Proofs.Lowering.Calls
import CircuitQir.Proofs.Lowering.Emission
/-!
# The module of a circuit

A circuit becomes a program of calls: those that its operations ask for, and behind them those that
record its registers (`Circuit.toModule_eq_ok_iff`). So what is known of programs of any calls is
known of modules of circuits, and what the options change in a module is what they change in that
list of calls, apart from a name and the attributes of the entry point.
-/

namespace CircuitQir

open Ir

/-! ## The calls of operations -/

/-- The operation becomes the call. -/
def Operation.Makes (registers : List Register) (o : Operation) (x : Call) : Prop :=
  o.callOf registers = .ok (x.intrinsic, x.args)

namespace EntryBlock

variable {registers : List Register} {options : Options} {b b' : EntryBlock}

/-- An emission that does not end before its time has added the calls of the operations. -/
theorem emitFrom_eq_none_iff : ∀ {os : List Operation} {b : EntryBlock} {position : Nat},
    b.emitFrom registers options position os = (b', none) ↔
      ∃ calls, List.Forall₂ (Operation.Makes registers) (os.filter (!·.isOmitted options)) calls ∧
        b' = b.callAll calls
  | [], b, _ => by
    constructor
    · intro h
      obtain ⟨rfl, -⟩ := Prod.mk.inj h
      exact ⟨[], .nil, rfl⟩
    · rintro ⟨_, hall, rfl⟩
      rw [List.forall₂_nil_left_iff.mp hall]
      rfl
  | o :: os, b, position => by
    rcases emitFrom_cases registers options o with
      homitted | ⟨homitted, ⟨i, args, hcall⟩ | ⟨f, hcall⟩⟩
    · rw [emitFrom_of_omitted homitted, emitFrom_eq_none_iff,
        List.filter_cons_of_neg (by simp [homitted])]
    · rw [emitFrom_of_called homitted hcall, emitFrom_eq_none_iff,
        List.filter_cons_of_pos (by simp [homitted])]
      have hlisted := (Operation.takes_of_callOf hcall).1
      constructor
      · rintro ⟨calls, hcalls, rfl⟩
        exact ⟨⟨i, args, hlisted⟩ :: calls, .cons hcall hcalls, rfl⟩
      · rintro ⟨_, hall, rfl⟩
        obtain ⟨x, calls, hmakes, hcalls, rfl⟩ := List.forall₂_cons_left_iff.mp hall
        obtain ⟨rfl, rfl⟩ := Prod.mk.inj (Except.ok.inj (hcall.symm.trans hmakes))
        exact ⟨calls, hcalls, rfl⟩
    · rw [emitFrom_of_refused homitted hcall, List.filter_cons_of_pos (by simp [homitted])]
      refine iff_of_false nofun ?_
      rintro ⟨_, hall, -⟩
      obtain ⟨x, _, hmakes, -, -⟩ := List.forall₂_cons_left_iff.mp hall
      cases hcall.symm.trans hmakes

end EntryBlock

/-! ## The calls of records -/

namespace Call

/-- The call that announces the results of a register. -/
def recordArray (r : Register) : Call :=
  ⟨Intrinsic.recordArray, [.int (Int64.ofNat r.size.toNat), .null],
    Intrinsic.mem_catalog_of_runtime (by simp [Intrinsic.runtime])⟩

/-- The call that records a bit of a register. -/
def recordResult (r : Register) (bit : Nat) : Call :=
  ⟨Intrinsic.recordResult, [indexOperand (r.globalIndex (UInt32.ofNat bit)), .null],
    Intrinsic.mem_catalog_of_runtime (by simp [Intrinsic.runtime])⟩

/-- The calls that record a register. -/
def recordsOf (r : Register) : List Call :=
  recordArray r :: (List.range r.size.toNat).map (recordResult r)

end Call

/-- The calls that record the registers of a circuit with some resources, if they are to be. -/
def Circuit.recordCalls (c : Circuit) (o : Options) (r : Resources) : List Call :=
  if o.recordOutput && 0 < r.results then c.registers.flatMap Call.recordsOf else []

namespace EntryBlock

theorem callAll_append (b : EntryBlock) (xs ys : List Call) :
    b.callAll (xs ++ ys) = (b.callAll xs).callAll ys :=
  List.foldl_append

theorem recordRegister_eq (b : EntryBlock) (r : Register) :
    b.recordRegister r = b.callAll (Call.recordsOf r) := by
  rw [recordRegister, callAll, Call.recordsOf, List.foldl_cons, List.foldl_map]
  rfl

theorem recordOutput_eq (rs : List Register) (b : EntryBlock) :
    b.recordOutput rs = b.callAll (rs.flatMap Call.recordsOf) := by
  induction rs generalizing b with
  | nil => rfl
  | cons r rs ih =>
    rw [List.flatMap_cons, callAll_append, ← recordRegister_eq, ← ih]
    rfl

end EntryBlock

namespace Circuit

variable {c : Circuit} {o : Options} {r : Resources} {m : Module}

/-- A circuit becomes the program that makes the calls of its operations and of its records. -/
theorem toModule_eq_ok_iff : c.toModule o r = .ok m ↔ ∃ calls,
    List.Forall₂ (Operation.Makes c.registers) (c.operations.filter (!·.isOmitted o)) calls ∧
      m = EntryBlock.programOf (entryPointName c o) (entryPointName c o)
        (calls ++ c.recordCalls o r) r o.profile := by
  have hrecords (b : EntryBlock) : (if o.recordOutput && 0 < r.results
      then b.recordOutput c.registers else b) = b.callAll (c.recordCalls o r) := by
    rw [recordCalls]
    split
    · exact EntryBlock.recordOutput_eq c.registers b
    · rfl
  have hemit (b : EntryBlock) := @EntryBlock.emitFrom_eq_none_iff c.registers o b c.operations
    (.start (entryPointName c o) (entryPointName c o)) 0
  unfold toModule EntryBlock.programOf
  dsimp only
  simp only [hrecords, EntryBlock.callAll_append]
  constructor
  · intro h
    split at h
    · cases h
    · rename_i b hb
      obtain ⟨calls, hcalls, rfl⟩ := (hemit b).mp hb
      exact ⟨calls, hcalls, (Except.ok.inj h).symm⟩
  · rintro ⟨calls, hcalls, rfl⟩
    rw [EntryBlock.emit, (hemit _).mpr ⟨calls, hcalls, rfl⟩]

end Circuit

end CircuitQir
