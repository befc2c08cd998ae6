import CircuitQir.Circuit.Builder
import CircuitQir.Proofs.Lowering.RoundTrip
import Mathlib.Data.List.Find
import Mathlib.Data.Set.Operations
/-!
# Registers under other names

Registers are known by their ids, and nothing else depends on what the ids are: a circuit whose
registers are given other ids, different ones for different registers, has the same program, and if
it has none, the same is wrong with it (`Circuit.lower_rename`). Ids are compared with each other
when registers are checked for duplicates, and when the register of a result is looked for, once in
accounting and once in emission. Each of these places comes with a law that a change of names
passes through it. The names then go on into the errors.
-/

namespace CircuitQir

open Ir

variable {f : String → String}

/-! ## Other names -/

def ResultTarget.rename (f : String → String) (t : ResultTarget) : ResultTarget :=
  { t with register := f t.register }

def Operation.rename (f : String → String) (o : Operation) : Operation :=
  { o with result := o.result.map (·.rename f) }

def Register.rename (f : String → String) (r : Register) : Register :=
  { r with id := f r.id }

/-- The circuit with other names for its registers, wherever they are named. -/
def Circuit.rename (f : String → String) (c : Circuit) : Circuit :=
  { c with
    operations := c.operations.map (·.rename f)
    registers := c.registers.map (·.rename f) }

/-- The names of registers in a circuit: those of its registers, and those that its operations
name, which need not be there. -/
def Circuit.registerNames (c : Circuit) : List String :=
  c.registers.map Register.id ++ c.operations.filterMap (·.result.map (·.register))

def Reference.rename (f : String → String) : Reference → Reference
  | unknownRegister register => .unknownRegister (f register)
  | bit register index size => .bit (f register) index size
  | qubit q count => .qubit q count
  | repeatedQubit q => .repeatedQubit q
  | missingResult => .missingResult
  | unexpectedResult => .unexpectedResult

def OperationFault.rename (f : String → String) : OperationFault → OperationFault
  | reference r => .reference (r.rename f)
  | unsupported name => .unsupported name
  | parameter value => .parameter value

/-- The error with other names for the registers in it. -/
def Error.rename (f : String → String) : Error → Error
  | operation position fault => .operation position (fault.rename f)
  | layout register issue => .layout (f register) issue
  | disagreement d => .disagreement d
  | malformed m => .malformed m

/-! ## Looking for a register -/

/-- None of the registers comes to bear the name of the operation's if it has not borne it. -/
def Operation.Distinguished (f : String → String) (registers : List Register) (o : Operation) :
    Prop :=
  ∀ t ∈ o.result, ∀ r ∈ registers, f r.id = f t.register → r.id = t.register

theorem Register.find?_rename {rs : List Register} {id : String}
    (h : ∀ r ∈ rs, f r.id = f id → r.id = id) :
    (rs.map (·.rename f)).find? (·.id = f id) = (rs.find? (·.id = id)).map (·.rename f) := by
  rw [List.find?_map]
  refine congrArg _ (List.find?_congr fun r hr => ?_)
  exact decide_eq_decide.mpr ⟨h r hr, congrArg f⟩

namespace Resources

/-! ## Accounting -/

theorem contains_map {seen : List String} {id : String}
    (h : ∀ s ∈ seen, f s = f id → s = id) : (seen.map f).contains (f id) = seen.contains id := by
  rw [Bool.eq_iff_iff, List.contains_iff_mem, List.contains_iff_mem, List.mem_map]
  constructor
  · rintro ⟨s, hs, heq⟩
    exact h s hs heq ▸ hs
  · exact fun hid => ⟨id, hid, rfl⟩

theorem checkRegisters_rename : ∀ {rs : List Register} {seen : List String} {expected : UInt32},
    Set.InjOn f {id | id ∈ seen ++ rs.map Register.id} →
    checkRegisters (seen.map f) expected (rs.map (·.rename f)) =
      (checkRegisters seen expected rs).mapError (Error.rename f)
  | [], _, _, _ => rfl
  | r :: rs, seen, expected, hf => by
    have hseen : (seen.map f).contains (r.rename f).id = seen.contains r.id :=
      contains_map fun s hs heq => hf (by simp [hs]) (by simp) heq
    have hrest := @checkRegisters_rename rs (r.id :: seen) (expected + r.size) (hf.mono ?_)
    · rw [List.map_cons, checkRegisters, checkRegisters, hseen]
      split
      · rfl
      show (if r.offset < expected then _ else _) = _
      split
      · rfl
      show (if expected < r.offset then _ else _) = _
      split
      · rfl
      show (if expected.toNat + r.size.toNat < 2 ^ 32 then _ else _) = _
      split
      · exact hrest
      · rfl
    · -- The id moves from those to come to those seen, so the names in question stay the same.
      intro id hid
      simp only [Set.mem_ofPred_eq, List.mem_append, List.mem_cons, List.map_cons] at hid ⊢
      tauto

/-- What is wrong with qubits has nothing to do with registers. -/
theorem mapError_checkQubits {count : UInt32} : ∀ {qs seen : List UInt32},
    (checkQubits count seen qs).mapError (OperationFault.rename f) = checkQubits count seen qs
  | [], _ => rfl
  | q :: qs, seen => by
    rw [checkQubits]
    split
    · rfl
    split
    · rfl
    · exact mapError_checkQubits

theorem checkResult_rename {c : Circuit} {o : Operation} (h : o.Distinguished f c.registers) :
    checkResult (c.rename f) (o.rename f) = (checkResult c o).mapError (OperationFault.rename f) := by
  have hkind : (o.rename f).kind = o.kind := rfl
  have hresult : (o.rename f).result = o.result.map (·.rename f) := rfl
  unfold checkResult
  rw [hkind, hresult]
  cases o.kind.isMeasurement with
  | false => cases o.result <;> rfl
  | true =>
    cases htarget : o.result with
    | none => rfl
    | some target =>
      have hfind : (c.rename f).register? (f target.register) =
          (c.register? target.register).map (·.rename f) :=
        Register.find?_rename (h target htarget)
      simp only [Option.map_some, ResultTarget.rename, hfind]
      cases c.register? target.register with
      | none => rfl
      | some r =>
        simp only [Option.map_some, Register.rename]
        split
        · rfl
        · rfl

theorem checkOperation_rename {c : Circuit} {o : Operation} (h : o.Distinguished f c.registers) :
    checkOperation (c.rename f) (o.rename f) =
      (checkOperation c o).mapError (OperationFault.rename f) := by
  have hqubits : (checkQubits c.qubitCount [] o.qubits).mapError (OperationFault.rename f) =
      checkQubits c.qubitCount [] o.qubits := mapError_checkQubits
  rw [checkOperation, checkOperation, mapError_bind, hqubits, ← checkResult_rename h]
  rfl

theorem checkOperations_rename {c : Circuit} : ∀ {os : List Operation} {position : Nat},
    (∀ o ∈ os, o.Distinguished f c.registers) →
    checkOperations (c.rename f) position (os.map (·.rename f)) =
      (checkOperations c position os).mapError (Error.rename f)
  | [], _, _ => rfl
  | o :: os, position, h => by
    obtain ⟨ho, hos⟩ := List.forall_mem_cons.mp h
    rw [List.map_cons, checkOperations, checkOperations, checkOperation_rename ho]
    cases checkOperation c o with
    | ok _ => exact checkOperations_rename hos
    | error _ => rfl

end Resources

/-- A change of names that tells the names in a circuit apart distinguishes its operations. -/
theorem Circuit.distinguished {c : Circuit} (hf : Set.InjOn f {id | id ∈ c.registerNames}) :
    ∀ o ∈ c.operations, o.Distinguished f c.registers := by
  intro o ho t ht r hr heq
  refine hf (List.mem_append_left _ (List.mem_map_of_mem hr)) (List.mem_append_right _ ?_) heq
  exact List.mem_filterMap.mpr ⟨o, ho, by rw [ht]; rfl⟩

theorem Resources.account_rename {c : Circuit} (hf : Set.InjOn f {id | id ∈ c.registerNames}) :
    account (c.rename f) = (account c).mapError (Error.rename f) := by
  have hregisters : checkRegisters [] 0 (c.rename f).registers =
      (checkRegisters [] 0 c.registers).mapError (Error.rename f) :=
    @checkRegisters_rename f c.registers [] 0 (hf.mono fun id hid => List.mem_append_left _ hid)
  have hoperations : checkOperations (c.rename f) 0 (c.rename f).operations =
      (checkOperations c 0 c.operations).mapError (Error.rename f) :=
    checkOperations_rename (c.distinguished hf)
  have hqubits : (c.rename f).operations.flatMap Operation.qubits =
      c.operations.flatMap Operation.qubits := List.flatMap_map ..
  simp only [account, mapError_bind, hregisters, hoperations, hqubits]
  rfl

/-! ## Emission -/

namespace Operation

variable {registers : List Register} {o : Operation}

theorem resultOperand_rename (h : o.Distinguished f registers) :
    (o.rename f).resultOperand (registers.map (·.rename f)) =
      (o.resultOperand registers).mapError (OperationFault.rename f) := by
  have hresult : (o.rename f).result = o.result.map (·.rename f) := rfl
  unfold resultOperand
  rw [hresult]
  cases htarget : o.result with
  | none => rfl
  | some target =>
    have hfind := Register.find?_rename (h target htarget)
    simp only [Option.map_some, ResultTarget.rename, hfind]
    cases registers.find? (·.id = target.register) with
    | none => rfl
    | some r => rfl

theorem arguments_rename (h : o.Distinguished f registers) (layout : ArgumentLayout) :
    (o.rename f).arguments (registers.map (·.rename f)) layout =
      (o.arguments registers layout).mapError (OperationFault.rename f) := by
  cases layout with
  | qubits => rfl
  | angleThenQubits =>
    simp only [arguments, rename]
    split
    · rfl
    · rfl
  | durationThenQubit =>
    simp only [arguments, rename]
    split
    · split
      · rfl
      · rfl
    · rfl
  | flagThenQubit =>
    simp only [arguments, rename]
    split
    · rfl
    · rfl
  | qubitThenResult =>
    simp only [arguments, mapError_bind, resultOperand_rename h]
    rfl
  | nothing => rfl

theorem callOf_rename (h : o.Distinguished f registers) :
    (o.rename f).callOf (registers.map (·.rename f)) =
      (o.callOf registers).mapError (OperationFault.rename f) := by
  have hfind : Intrinsic.find? (o.rename f).kind (.ofOperation (o.rename f)) =
      Intrinsic.find? o.kind (.ofOperation o) := rfl
  unfold callOf
  rw [hfind]
  cases Intrinsic.find? o.kind (.ofOperation o) with
  | none => rfl
  | some i =>
    have hparams : (o.rename f).params = o.params := rfl
    simp only [hparams]
    cases o.params.find? (!·.isFinite) with
    | some value => rfl
    | none =>
      simp only [mapError_bind, arguments_rename h]
      rfl

end Operation

namespace EntryBlock

/-- Emission makes the same calls. -/
theorem emitFrom_rename {registers : List Register} {options : Options} :
    ∀ {os : List Operation} {b : EntryBlock} {position : Nat},
      (∀ o ∈ os, o.Distinguished f registers) →
      b.emitFrom (registers.map (·.rename f)) options position (os.map (·.rename f)) =
        ((b.emitFrom registers options position os).1,
          (b.emitFrom registers options position os).2.map (Error.rename f))
  | [], _, _, _ => rfl
  | o :: os, b, position, h => by
    obtain ⟨ho, hos⟩ := List.forall_mem_cons.mp h
    have homitted : (o.rename f).isOmitted options = o.isOmitted options := rfl
    rw [List.map_cons, emitFrom, emitFrom, homitted, Operation.callOf_rename ho]
    split
    · exact emitFrom_rename hos
    · cases o.callOf registers with
      | ok call => exact emitFrom_rename hos
      | error fault => rfl

/-- So does recording, which does not look at names at all. -/
theorem recordOutput_rename (rs : List Register) (b : EntryBlock) :
    b.recordOutput (rs.map (·.rename f)) = b.recordOutput rs :=
  List.foldl_map

end EntryBlock

/-! ## Programs -/

namespace Circuit

variable {c : Circuit} {o : Options} {r : Resources}

theorem toModule_rename (hf : Set.InjOn f {id | id ∈ c.registerNames}) :
    (c.rename f).toModule o r = (c.toModule o r).mapError (Error.rename f) := by
  have hname : entryPointName (c.rename f) o = entryPointName c o := rfl
  have hemit (b : EntryBlock) : b.emit (c.rename f) o =
      ((b.emit c o).1, (b.emit c o).2.map (Error.rename f)) :=
    EntryBlock.emitFrom_rename (c.distinguished hf)
  have hrecord (b : EntryBlock) :
      b.recordOutput (c.rename f).registers = b.recordOutput c.registers :=
    EntryBlock.recordOutput_rename c.registers b
  simp only [toModule, hname, hemit, hrecord]
  rcases (EntryBlock.start (entryPointName c o) (entryPointName c o)).emit c o with ⟨b, _ | e⟩
  · rfl
  · rfl

/-- The ids of registers do not matter: under other ids, as long as different ones stay different,
a circuit has the same program with the same renderings, or the same is wrong with it, in a message
with the other ids. -/
theorem lower_rename (hf : Set.InjOn f {id | id ∈ c.registerNames}) :
    (c.rename f).lower o = (c.lower o).mapError (Error.rename f) := by
  have hverify (m : Module) (r : Resources) :
      ((verify m r).mapError Error.malformed).mapError (Error.rename f) =
        (verify m r).mapError Error.malformed := by
    cases verify m r <;> rfl
  have hcheck (m : Module) (text : String) (bitcode : List UInt8) :
      ((checkRenderings m text bitcode).mapError Error.disagreement).mapError (Error.rename f) =
        (checkRenderings m text bitcode).mapError Error.disagreement := by
    cases checkRenderings m text bitcode <;> rfl
  simp only [lower, mapError_bind, Resources.account_rename hf, toModule_rename hf, hverify, hcheck]
  rfl

/-- Exchanges two names, and takes all others for one. -/
def exchanged (id : String) : String := if id = "a" then "b" else if id = "b" then "a" else ""

/-- Two registers that are written in the order opposite to theirs. -/
def crossedPair : Circuit where
  name := "pair"
  qubitCount := 2
  operations :=
    [⟨.measure, [0], [], [], some ⟨"b", 0⟩⟩, ⟨.measure, [1], [], [], some ⟨"a", 0⟩⟩]
  registers := [⟨"a", 1, 0⟩, ⟨"b", 1, 1⟩]

/-- The program stays the same. Where there is none because there is no register "c", there is
none called "" under the other names. -/
theorem lower_rename_exchanged :
    (∃ p, crossedPair.lower .default = .ok p ∧
      (crossedPair.rename exchanged).lower .default = .ok p) ∧
    ({ crossedPair with operations := [.measure 0 "a" 0, .measure 1 "c" 0] }.rename
      exchanged).lower .default = .error (.operation 1 (.reference (.unknownRegister ""))) := by
  have haccount : Resources.account crossedPair = .ok ⟨2, 2⟩ := by decide +kernel
  have hshort : crossedPair.ShortBitcode .default :=
    shortBitcode_of_length haccount rfl (Bitcode.length_encode_lt_of_extent (by decide +kernel))
  have hlower := lower_of_toModule hshort haccount rfl
  have hinjective : ∀ a ∈ ["a", "b", "c"], ∀ b ∈ ["a", "b", "c"],
      exchanged a = exchanged b → a = b := by decide
  have hnames {c : Circuit} (h : c.registerNames ⊆ ["a", "b", "c"]) :
      Set.InjOn exchanged {id | id ∈ c.registerNames} :=
    fun a ha b hb => hinjective a (h ha) b (h hb)
  refine ⟨⟨_, hlower, ?_⟩, ?_⟩
  · rw [lower_rename (hnames (by decide)), hlower]
    rfl
  · rw [lower_rename (hnames (by decide))]
    rfl

end Circuit

end CircuitQir
