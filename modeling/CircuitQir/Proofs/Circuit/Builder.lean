import CircuitQir.Circuit.Builder
import CircuitQir.Proofs.Lowering.Offences
/-!
# Registers of circuits that were built

A builder and accounting both keep the sum of the sizes of the registers so far. The builder stays
at the largest number of 32 bits where the sum is larger, and accounting refuses the register. So
they agree on every register up to the first with which the sum is too large (`Stacked`), and no
register of a built circuit overlaps another or leaves a gap: accounting can only find that there
are too many bits, or an id twice (`Stacked.rejected_iff`).
-/

namespace CircuitQir

namespace Circuit.Builder

/-! ## Runs -/

/-- What a builder can be told. -/
inductive Step where
  | register (id : String) (size : UInt32)
  | push (o : Operation)

namespace Step

/-- The register that is asked for. -/
def register? : Step → Option (String × UInt32)
  | register id size => some (id, size)
  | push _ => none

/-- The operation that is asked for. -/
def operation? : Step → Option Operation
  | register _ _ => none
  | push o => some o

end Step

def step (b : Builder) : Step → Builder
  | .register id size => b.register id size
  | .push o => b.push o

def run (b : Builder) (steps : List Step) : Builder := steps.foldl step b

/-- The circuit that comes of some steps. -/
def built (name : String) (qubitCount : UInt32) (steps : List Step) : Circuit :=
  ((new name qubitCount).run steps).circuit

/-! ## Offsets -/

/-- The largest number of 32 bits. -/
def maxOffset : Nat := 2 ^ 32 - 1

theorem toNat_saturatingAdd (a b : UInt32) :
    (saturatingAdd a b).toNat = min maxOffset (a.toNat + b.toNat) := by
  have ha := a.toNat_lt
  unfold saturatingAdd maxOffset
  split
  · rename_i hfits
    rw [UInt32.toNat_add, Nat.mod_eq_of_lt hfits]
    omega
  · rw [UInt32.toNat_ofNat']
    omega

/-- Every register starts where those before it end, or at the largest number there is. -/
structure Stacked (b : Builder) : Prop where
  next : b.nextOffset.toNat = min maxOffset (Register.totalSize b.circuit.registers)
  offsets : ∀ before r after, b.circuit.registers = before ++ r :: after →
    r.offset.toNat = min maxOffset (Register.totalSize before)

variable {b : Builder}

theorem stacked_new (name : String) (qubitCount : UInt32) : (new name qubitCount).Stacked where
  next := rfl
  offsets before r after h := by simp [new] at h

theorem Stacked.register (h : b.Stacked) (id : String) (size : UInt32) :
    (b.register id size).Stacked where
  next := by
    show (saturatingAdd b.nextOffset size).toNat =
      min maxOffset (Register.totalSize (b.circuit.registers ++ [⟨id, size, b.nextOffset⟩]))
    have htotal := Register.totalSize_concat b.circuit.registers ⟨id, size, b.nextOffset⟩
    rw [toNat_saturatingAdd, h.next, htotal]
    dsimp only
    omega
  offsets before r after heq := by
    change b.circuit.registers ++ [⟨id, size, b.nextOffset⟩] = before ++ r :: after at heq
    rcases List.eq_nil_or_concat after with rfl | ⟨after, q, rfl⟩
    · obtain ⟨rfl, rfl⟩ := List.append_singleton_inj.mp heq
      exact h.next
    · rw [List.concat_eq_append, ← List.cons_append, ← List.append_assoc] at heq
      exact h.offsets before r after (List.append_singleton_inj.mp heq).1

theorem Stacked.push (h : b.Stacked) (o : Operation) : (b.push o).Stacked := ⟨h.next, h.offsets⟩

theorem Stacked.run (h : b.Stacked) (steps : List Step) : (b.run steps).Stacked := by
  refine List.foldlRecOn _ _ h fun b h step _ => ?_
  cases step with
  | register id size => exact h.register id size
  | push o => exact h.push o

/-! ## Contents -/

/-- What is added to the registers, without their offsets, and to the operations. -/
theorem contents_run (steps : List Step) : ∀ b : Builder,
    (b.run steps).circuit.registers.map (fun r => (r.id, r.size)) =
        b.circuit.registers.map (fun r => (r.id, r.size)) ++ steps.filterMap Step.register? ∧
      (b.run steps).circuit.operations =
        b.circuit.operations ++ steps.filterMap Step.operation? := by
  induction steps with
  | nil => simp [run]
  | cons s steps ih =>
    intro b
    obtain ⟨hregisters, hoperations⟩ := ih (b.step s)
    cases s with
    | register id size =>
      refine ⟨hregisters.trans ?_, hoperations⟩
      simp [step, register, Step.register?]
    | push o =>
      refine ⟨hregisters, hoperations.trans ?_⟩
      simp [step, push, Step.operation?]

/-! ## Accounting -/

/-- How a register fails behind others when each starts where the one before it ends: its id was
there before, or with it there are too many bits. -/
inductive Exceeds (before : List Register) (r : Register) : LayoutIssue → Prop
  | duplicate (hid : r.id ∈ before.map Register.id) : Exceeds before r .duplicate
  | tooLarge (hid : r.id ∉ before.map Register.id)
    (hsize : maxOffset < Register.totalSize (before ++ [r])) : Exceeds before r .tooLarge

section

open Register

variable {before after : List Register} {r : Register} {issue : LayoutIssue}

/-- Registers with different ids and not too many bits are arranged. -/
theorem Stacked.arranged (h : b.Stacked) (heq : b.circuit.registers = before ++ after)
    (hnodup : (before.map Register.id).Nodup) (hsize : totalSize before ≤ maxOffset) :
    Arranged before := by
  induction before using List.reverseRecOn generalizing after with
  | nil => exact arranged_nil
  | append_singleton before r ih =>
    rw [List.append_assoc] at heq
    rw [List.map_append, List.nodup_append', List.map_singleton, List.disjoint_singleton] at hnodup
    rw [totalSize_concat] at hsize
    have hbefore := ih heq hnodup.1 (by omega)
    have hoffset := h.offsets before r after heq
    unfold maxOffset at hsize hoffset
    exact arranged_concat.mpr ⟨hbefore, hnodup.2.2, by omega, by omega⟩

/-- Behind arranged registers, the next one starts where it should. -/
theorem Stacked.misplaced_iff (h : b.Stacked)
    (heq : b.circuit.registers = before ++ r :: after) (hbefore : Arranged before) :
    Misplaced before r issue ↔ Exceeds before r issue := by
  have hoffset : r.offset.toNat = totalSize before := by
    have hmin := h.offsets before r after heq
    have hfits := hbefore.fits
    unfold maxOffset at hmin
    omega
  have hsize : maxOffset < totalSize (before ++ [r]) ↔
      2 ^ 32 ≤ totalSize before + r.size.toNat := by
    rw [totalSize_concat]
    unfold maxOffset
    omega
  constructor
  · intro hr
    cases hr with
    | duplicate hid => exact .duplicate hid
    | overlap _ hexpected hlt =>
      rw [UInt32.lt_iff_toNat_lt] at hlt
      omega
    | gap _ hexpected hlt =>
      rw [UInt32.lt_iff_toNat_lt] at hlt
      omega
    | tooLarge hid _ hlarge => exact .tooLarge hid (hsize.mpr hlarge)
  · intro hr
    cases hr with
    | duplicate hid => exact .duplicate hid
    | tooLarge hid hlarge => exact .tooLarge hid hoffset (hsize.mp hlarge)

/-- The layout of a built circuit is accepted exactly if no id comes twice and there are not too
many bits. -/
theorem Stacked.accepted_iff (h : b.Stacked) :
    (∀ id issue, Resources.account b.circuit ≠ .error (.layout id issue)) ↔
      (b.circuit.registers.map Register.id).Nodup ∧
        totalSize b.circuit.registers ≤ maxOffset := by
  constructor
  · intro haccount
    have harranged : Arranged b.circuit.registers := by
      rcases Resources.scans_checkRegisters.sound_or_first b.circuit.registers with
        harranged | ⟨before, r, after, _, heq, hbefore, issue, hr, -⟩
      · exact harranged
      · exact absurd (Resources.account_eq_error_iff.mpr (.register heq hbefore hr))
          (haccount r.id issue)
    exact ⟨harranged.nodup, Nat.le_sub_one_of_lt harranged.fits⟩
  · rintro ⟨hnodup, hsize⟩ id issue haccount
    have harranged := h.arranged (List.append_nil _).symm hnodup hsize
    have hok := Resources.checkRegisters_eq_ok_iff.mpr ⟨harranged, harranged.toNat_totalSize⟩
    cases Resources.account_eq_error_iff.mp haccount with
    | register heq hbefore hr =>
      rw [Resources.checkRegisters_eq_error_iff.mpr ⟨_, _, _, heq, hbefore, _, hr, rfl⟩] at hok
      cases hok

/-- A register of a built circuit is reported exactly if it is the first to come with an id that
was there before, or with too many bits. -/
theorem Stacked.rejected_iff (h : b.Stacked) {id : String} {issue : LayoutIssue} :
    Resources.account b.circuit = .error (.layout id issue) ↔ ∃ before r after,
      b.circuit.registers = before ++ r :: after ∧ r.id = id ∧ (before.map Register.id).Nodup ∧
        totalSize before ≤ maxOffset ∧ Exceeds before r issue := by
  rw [Resources.account_eq_error_iff]
  constructor
  · intro hoffence
    cases hoffence with
    | register heq hbefore hr =>
      exact ⟨_, _, _, heq, rfl, hbefore.nodup, Nat.le_sub_one_of_lt hbefore.fits,
        (h.misplaced_iff heq hbefore).mp hr⟩
  · rintro ⟨before, r, after, heq, rfl, hnodup, hsize, hr⟩
    have hbefore := h.arranged heq hnodup hsize
    exact .register heq hbefore ((h.misplaced_iff heq hbefore).mpr hr)

end

/-- Whatever a builder is told, the circuit has the registers and operations asked for. Each
register starts where those before it end, or at the largest number there is, so accounting never
reports an overlap or a gap. It accepts the layout exactly if ids differ and there are not too many
bits, and otherwise reports the first register with which that ends. -/
theorem account_built (name : String) (qubitCount : UInt32) (steps : List Step) :
    (built name qubitCount steps).registers.map (fun r => (r.id, r.size)) =
        steps.filterMap Step.register? ∧
      (built name qubitCount steps).operations = steps.filterMap Step.operation? ∧
      (∀ before r after, (built name qubitCount steps).registers = before ++ r :: after →
        r.offset.toNat = min maxOffset (Register.totalSize before)) ∧
      (∀ id offset expected,
        Resources.account (built name qubitCount steps) ≠
            .error (.layout id (.overlap offset expected)) ∧
          Resources.account (built name qubitCount steps) ≠
            .error (.layout id (.gap offset expected))) ∧
      ((∀ id issue, Resources.account (built name qubitCount steps) ≠ .error (.layout id issue)) ↔
        ((built name qubitCount steps).registers.map Register.id).Nodup ∧
          Register.totalSize (built name qubitCount steps).registers ≤ maxOffset) ∧
      ∀ id issue, Resources.account (built name qubitCount steps) = .error (.layout id issue) ↔
        ∃ before r after, (built name qubitCount steps).registers = before ++ r :: after ∧
          r.id = id ∧ (before.map Register.id).Nodup ∧ Register.totalSize before ≤ maxOffset ∧
            Exceeds before r issue := by
  have hstacked : ((new name qubitCount).run steps).Stacked :=
    (stacked_new name qubitCount).run steps
  obtain ⟨hregisters, hoperations⟩ := contents_run steps (new name qubitCount)
  refine ⟨hregisters, hoperations, hstacked.offsets, ?_, hstacked.accepted_iff,
    fun _ _ => hstacked.rejected_iff⟩
  intro id offset expected
  constructor
  · intro h
    obtain ⟨_, _, _, -, -, -, -, hexceeds⟩ := hstacked.rejected_iff.mp h
    cases hexceeds
  · intro h
    obtain ⟨_, _, _, -, -, -, -, hexceeds⟩ := hstacked.rejected_iff.mp h
    cases hexceeds

end Circuit.Builder

end CircuitQir
