import CircuitQir.Proofs.Lowering.Accounting
import CircuitQir.Proofs.Lowering.Emission
import CircuitQir.Proofs.Lowering.RoundTrip
/-!
# Which circuits are lowered

A circuit is lowered exactly if its resources can be accounted for and each of its operations has
an intrinsic and finite numbers (`Operation.Lowerable`); otherwise the error is that of accounting
or, after it, that of the first operation at fault (`Operation.FirstFault`). No other error is
left: accounting has seen to the results that measurements write, the catalog only has intrinsics
whose layout suits the operation, and the checks on a finished program never fail.
-/

namespace CircuitQir

open Ir

/-! ## One operation -/

namespace Operation

/-- An intrinsic stands for the operation, and all numbers that are passed are finite. -/
structure Lowerable (o : Operation) : Prop where
  known : ∃ i, Intrinsic.find? o.kind (.ofOperation o) = some i
  finite : ∀ p ∈ o.params, p.isFinite = true
  duration : ∀ unit, o.kind = .delay unit → ∀ p ∈ o.params,
    (unit.toMicroseconds p).isFinite = true

/-- What keeps an operation from being lowered: that no intrinsic stands for it, or else a
parameter that is not finite, or else a duration that is not finite in microseconds. -/
inductive Fault (o : Operation) : OperationFault → Prop
  | unsupported (hunknown : Intrinsic.find? o.kind (.ofOperation o) = none) :
    Fault o (.unsupported o.kind.display)
  | parameter {i : Intrinsic} {value : Double}
    (hknown : Intrinsic.find? o.kind (.ofOperation o) = some i)
    (hvalue : o.params.find? (!·.isFinite) = some value) : Fault o (.parameter value)
  | duration {i : Intrinsic} {unit : TimeUnit} {duration : Double}
    (hknown : Intrinsic.find? o.kind (.ofOperation o) = some i)
    (hfinite : ∀ p ∈ o.params, p.isFinite = true) (hkind : o.kind = .delay unit)
    (hparams : o.params = [duration])
    (hduration : (unit.toMicroseconds duration).isFinite = false) :
    Fault o (.parameter (unit.toMicroseconds duration))

variable {o : Operation} {c : Circuit}

theorem find?_params_eq_none :
    o.params.find? (!·.isFinite) = none ↔ ∀ p ∈ o.params, p.isFinite = true := by
  simp

/-- A delay that an intrinsic stands for has one parameter. -/
theorem params_of_delay {i : Intrinsic} {unit : TimeUnit}
    (hknown : Intrinsic.find? o.kind (.ofOperation o) = some i) (hkind : o.kind = .delay unit) :
    i = Intrinsic.delay ∧ ∃ duration, o.params = [duration] := by
  have hserves := Intrinsic.serves_of_find? hknown
  rw [hkind] at hknown
  obtain rfl := Intrinsic.eq_delay_of_find? hknown
  exact ⟨rfl, List.length_eq_one_iff.mp hserves.suits.2⟩

/-- An operation can be lowered, or something keeps it from being lowered. -/
theorem lowerable_or_fault (o : Operation) : o.Lowerable ∨ ∃ f, o.Fault f := by
  cases hknown : Intrinsic.find? o.kind (.ofOperation o) with
  | none => exact .inr ⟨_, .unsupported hknown⟩
  | some i =>
    cases hvalue : o.params.find? (!·.isFinite) with
    | some value => exact .inr ⟨_, .parameter hknown hvalue⟩
    | none =>
      have hfinite := find?_params_eq_none.mp hvalue
      by_cases hduration : ∀ unit, o.kind = .delay unit → ∀ p ∈ o.params,
          (unit.toMicroseconds p).isFinite = true
      · exact .inl ⟨⟨i, hknown⟩, hfinite, hduration⟩
      · right
        push Not at hduration
        obtain ⟨unit, hkind, p, hp, hinfinite⟩ := hduration
        obtain ⟨-, duration, hparams⟩ := params_of_delay hknown hkind
        rw [hparams, List.mem_singleton] at hp
        subst hp
        exact ⟨_, .duration hknown hfinite hkind hparams (Bool.eq_false_iff.mpr hinfinite)⟩

theorem exists_fault_iff (o : Operation) : (∃ f, o.Fault f) ↔ ¬ o.Lowerable := by
  refine ⟨?_, (lowerable_or_fault o).resolve_left⟩
  rintro ⟨f, h⟩ hlowerable
  cases h with
  | unsupported hunknown =>
    obtain ⟨i, hknown⟩ := hlowerable.known
    rw [hunknown] at hknown
    cases hknown
  | parameter _ hvalue =>
    rw [find?_params_eq_none.mpr hlowerable.finite] at hvalue
    cases hvalue
  | @duration _ _ duration _ _ hkind hparams hduration =>
    have hmem : duration ∈ o.params := by simp [hparams]
    rw [hlowerable.duration _ hkind duration hmem] at hduration
    cases hduration

theorem arguments_of_duration {registers : List Register} {unit : TimeUnit} {duration : Double}
    (hkind : o.kind = .delay unit) (hparams : o.params = [duration])
    (hduration : (unit.toMicroseconds duration).isFinite = false) :
    o.arguments registers .durationThenQubit =
      .error (.parameter (unit.toMicroseconds duration)) := by
  simp only [arguments, hkind, hparams, hduration]
  rfl

/-- An operation at fault becomes no call. -/
theorem callOf_of_fault {registers : List Register} {f : OperationFault} (h : o.Fault f) :
    o.callOf registers = .error f := by
  unfold callOf
  cases h with
  | unsupported hunknown =>
    rw [hunknown]
    rfl
  | parameter hknown hvalue =>
    rw [hknown]
    dsimp only
    rw [hvalue]
  | duration hknown hfinite hkind hparams hduration =>
    obtain ⟨rfl, -⟩ := params_of_delay hknown hkind
    rw [hknown]
    dsimp only
    rw [find?_params_eq_none.mpr hfinite]
    exact bind_of_error (arguments_of_duration hkind hparams hduration) _

/-- Accounting leaves a layout nothing to miss in the operations it suits. -/
theorem passes_of_suits {layout : ArgumentLayout} (h : o.Lowerable)
    (hresult : Resources.checkResult c o = .ok ())
    (hsuits : layout.Suits o.kind (.ofOperation o)) :
    ∃ args, Passes c.registers o layout args := by
  cases layout with
  | qubits => exact ⟨_, .qubits⟩
  | angleThenQubits =>
    obtain ⟨angle, hparams⟩ := List.length_eq_one_iff.mp hsuits
    exact ⟨_, .angle hparams⟩
  | durationThenQubit =>
    obtain ⟨⟨unit, hkind⟩, hlength⟩ := hsuits
    obtain ⟨duration, hparams⟩ := List.length_eq_one_iff.mp hlength
    have hmem : duration ∈ o.params := by simp [hparams]
    exact ⟨_, .duration hkind hparams (h.duration unit hkind duration hmem)⟩
  | flagThenQubit =>
    obtain ⟨state, hkind⟩ := hsuits
    exact ⟨_, .flag hkind⟩
  | qubitThenResult =>
    have hkind : o.kind.isMeasurement = true := decide_eq_true hsuits
    unfold Resources.checkResult at hresult
    rw [hkind] at hresult
    split at hresult
    · rename_i heq _
      cases heq
    · rename_i heq _
      cases heq
    · cases hresult
    · rename_i htarget
      split at hresult
      · cases hresult
      · rename_i hr
        exact ⟨_, .result htarget hr⟩
  | nothing => exact ⟨_, .nothing⟩

/-- An operation that can be lowered becomes a call. -/
theorem callOf_of_lowerable (h : o.Lowerable) (hresult : Resources.checkResult c o = .ok ()) :
    ∃ i args, o.callOf c.registers = .ok (i, args) := by
  obtain ⟨i, hknown⟩ := h.known
  obtain ⟨args, hpasses⟩ := passes_of_suits h hresult (Intrinsic.serves_of_find? hknown).suits
  refine ⟨i, args, ?_⟩
  unfold callOf
  rw [hknown]
  dsimp only
  rw [find?_params_eq_none.mpr h.finite]
  exact bind_of_ok (arguments_of_passes hpasses) _

end Operation

/-! ## Accounting -/

/-- The error is about the circuit, and not about the program made of it. -/
def Error.BlamesCircuit : Error → Prop
  | operation _ _ => True
  | layout _ _ => True
  | malformed _ => False
  | disagreement _ => False

namespace Resources

theorem blamesCircuit_of_checkRegisters {e : Error} :
    ∀ {rs : List Register} {seen : List String} {expected : UInt32},
      checkRegisters seen expected rs = .error e → e.BlamesCircuit
  | [], _, _, h => by cases h
  | r :: rs, seen, expected, h => by
    unfold checkRegisters at h
    split at h
    · obtain rfl := Except.error.inj h
      trivial
    split at h
    · obtain rfl := Except.error.inj h
      trivial
    split at h
    · obtain rfl := Except.error.inj h
      trivial
    split at h
    · exact blamesCircuit_of_checkRegisters h
    · obtain rfl := Except.error.inj h
      trivial

theorem blamesCircuit_of_checkOperations {c : Circuit} {e : Error} :
    ∀ {os : List Operation} {position : Nat},
      checkOperations c position os = .error e → e.BlamesCircuit
  | [], _, h => by cases h
  | o :: os, position, h => by
    unfold checkOperations at h
    split at h
    · exact blamesCircuit_of_checkOperations h
    · obtain rfl := Except.error.inj h
      trivial

/-- Accounting blames a register or an operation. -/
theorem blamesCircuit_of_account {c : Circuit} {e : Error} (h : account c = .error e) :
    e.BlamesCircuit := by
  rcases bind_eq_error h with hregisters | ⟨results, -, h⟩
  · exact blamesCircuit_of_checkRegisters hregisters
  · rcases bind_eq_error h with hoperations | ⟨_, -, h⟩
    · exact blamesCircuit_of_checkOperations hoperations
    · cases h

end Resources

/-! ## All operations -/

namespace Operation

/-- The operation does not end the emission: it becomes a call, or is an omitted barrier. -/
def Acceptable (options : Options) (o : Operation) : Prop :=
  o.isOmitted options = true ∨ o.Lowerable

/-- The first of the operations to end the emission, at a position, has a fault. -/
def FirstFault (options : Options) (os : List Operation) (position : Nat)
    (f : OperationFault) : Prop :=
  ∃ before o after, os = before ++ o :: after ∧ before.length = position ∧
    (∀ p ∈ before, p.Acceptable options) ∧ o.isOmitted options = false ∧ o.Fault f

/-- Unless all operations are acceptable, one is the first at fault. -/
theorem acceptable_or_firstFault (options : Options) : ∀ os : List Operation,
    (∀ o ∈ os, o.Acceptable options) ∨ ∃ position f, FirstFault options os position f
  | [] => .inl nofun
  | o :: os => by
    by_cases hacceptable : o.Acceptable options
    · rcases acceptable_or_firstFault options os with hall | hfirst
      · exact .inl (List.forall_mem_cons.mpr ⟨hacceptable, hall⟩)
      · right
        obtain ⟨_, f, before, x, after, rfl, rfl, hbefore, hx⟩ := hfirst
        exact ⟨_, f, o :: before, x, after, rfl, rfl,
          List.forall_mem_cons.mpr ⟨hacceptable, hbefore⟩, hx⟩
    · right
      obtain ⟨homitted, hlowerable⟩ := not_or.mp hacceptable
      obtain ⟨f, hf⟩ := (exists_fault_iff o).mpr hlowerable
      exact ⟨0, f, [], o, os, rfl, rfl, nofun, Bool.eq_false_iff.mpr homitted, hf⟩

end Operation

namespace EntryBlock

variable {c : Circuit} {options : Options}

/-- Acceptable operations do not end an emission. -/
theorem emitFrom_of_acceptable : ∀ {os : List Operation} {b : EntryBlock} {position : Nat},
    (∀ o ∈ os, Resources.checkResult c o = .ok ()) → (∀ o ∈ os, o.Acceptable options) →
    ∃ b', b.emitFrom c.registers options position os = (b', none)
  | [], b, _, _, _ => ⟨b, rfl⟩
  | o :: os, b, position, hresults, hos => by
    obtain ⟨hresult, hresults⟩ := List.forall_mem_cons.mp hresults
    obtain ⟨ho, hos⟩ := List.forall_mem_cons.mp hos
    cases homitted : o.isOmitted options with
    | true =>
      rw [emitFrom_of_omitted homitted]
      exact emitFrom_of_acceptable hresults hos
    | false =>
      have hlowerable := ho.resolve_left (Bool.eq_false_iff.mp homitted)
      obtain ⟨i, args, hcall⟩ := Operation.callOf_of_lowerable hlowerable hresult
      rw [emitFrom_of_called homitted hcall]
      exact emitFrom_of_acceptable hresults hos

theorem emit_of_acceptable (hresults : ∀ o ∈ c.operations, Resources.checkResult c o = .ok ())
    (h : ∀ o ∈ c.operations, o.Acceptable options) (b : EntryBlock) :
    ∃ b', b.emit c options = (b', none) :=
  emitFrom_of_acceptable hresults h

/-- The first operation at fault ends the emission. -/
theorem emit_of_firstFault {position : Nat} {f : OperationFault}
    (hresults : ∀ o ∈ c.operations, Resources.checkResult c o = .ok ())
    (h : Operation.FirstFault options c.operations position f) (b : EntryBlock) :
    ∃ b', b.emit c options = (b', some (.operation position f)) := by
  obtain ⟨before, o, after, hos, rfl, hbefore, homitted, hfault⟩ := h
  rw [hos] at hresults
  obtain ⟨b', hemit⟩ := @emitFrom_of_acceptable c options before b 0
    (fun p hp => hresults p (List.mem_append_left _ hp)) hbefore
  refine ⟨b', ?_⟩
  rw [emit, hos, emitFrom_append, hemit]
  dsimp only
  rw [emitFrom_of_refused homitted (Operation.callOf_of_fault hfault), Nat.zero_add]

end EntryBlock

/-! ## The circuit -/

namespace Circuit

variable {c : Circuit} {o : Options} {r : Resources}

theorem toModule_of_acceptable (hr : Resources.account c = .ok r)
    (h : ∀ x ∈ c.operations, x.Acceptable o) : ∃ m, c.toModule o r = .ok m := by
  have hresults := (Resources.accounted_of_account hr).checkResult
  obtain ⟨b, hemit⟩ := EntryBlock.emit_of_acceptable hresults h (.start (entryPointName c o) _)
  unfold toModule
  dsimp only
  rw [hemit]
  exact ⟨_, rfl⟩

theorem toModule_of_firstFault (hr : Resources.account c = .ok r) {position : Nat}
    {f : OperationFault} (h : Operation.FirstFault o c.operations position f) :
    c.toModule o r = .error (.operation position f) := by
  have hresults := (Resources.accounted_of_account hr).checkResult
  obtain ⟨b, hemit⟩ := EntryBlock.emit_of_firstFault hresults h (.start (entryPointName c o) _)
  unfold toModule
  dsimp only
  rw [hemit]

/-- Every way for lowering to fail. -/
theorem lower_eq_error {e : Error} (h : c.lower o = .error e) :
    Resources.account c = .error e ∨ ∃ r, Resources.account c = .ok r ∧
      ((∃ position f, Operation.FirstFault o c.operations position f ∧
          e = .operation position f) ∨
        ∃ m d, c.toModule o r = .ok m ∧ e = .disagreement d) := by
  rcases bind_eq_error h with haccount | ⟨r, hr, h⟩
  · exact .inl haccount
  refine .inr ⟨r, hr, ?_⟩
  rcases Operation.acceptable_or_firstFault o c.operations with hall | ⟨position, f, hfirst⟩
  · right
    obtain ⟨m, hm⟩ := toModule_of_acceptable hr hall
    rw [bind_of_ok hm, verify_of_toModule hm] at h
    rcases bind_eq_error h with hverify | ⟨_, -, h⟩
    · cases hverify
    rcases bind_eq_error h with hcheck | ⟨_, -, h⟩
    · obtain ⟨d, rfl⟩ := exists_of_mapError hcheck
      exact ⟨m, d, hm, rfl⟩
    · cases h
  · left
    rw [bind_of_error (toModule_of_firstFault hr hfirst)] at h
    exact ⟨position, f, hfirst, (Except.error.inj h).symm⟩

/-- A program is never malformed, not even where its bitcode is long. -/
theorem lower_ne_malformed (x : Malformation) : c.lower o ≠ .error (.malformed x) := by
  intro h
  rcases lower_eq_error h with haccount | ⟨r, -, ⟨_, _, -, heq⟩ | ⟨_, _, -, heq⟩⟩
  · exact Resources.blamesCircuit_of_account haccount
  · cases heq
  · cases heq

theorem lower_of_acceptable (hshort : c.ShortBitcode o) (hr : Resources.account c = .ok r)
    (h : ∀ x ∈ c.operations, x.Acceptable o) : ∃ p, c.lower o = .ok p := by
  obtain ⟨m, hm⟩ := toModule_of_acceptable hr h
  exact ⟨_, lower_of_toModule hshort hr hm⟩

/-- The renderings of a program never disagree with it, unless the bitcode is too long. -/
theorem lower_ne_disagreement (hshort : c.ShortBitcode o) (d : Disagreement) :
    c.lower o ≠ .error (.disagreement d) := by
  intro h
  rcases lower_eq_error h with haccount | ⟨r, hr, ⟨_, _, -, heq⟩ | ⟨m, _, hm, -⟩⟩
  · exact Resources.blamesCircuit_of_account haccount
  · cases heq
  · rw [lower_of_toModule hshort hr hm] at h
    cases h

theorem rotatedPair_acceptable : ∀ x ∈ rotatedPair.operations, x.Acceptable .default := by
  have hfixed {x : Operation} (hknown : ∃ i, Intrinsic.find? x.kind (.ofOperation x) = some i)
      (hparams : x.params = []) : x.Acceptable .default :=
    .inr ⟨hknown, by simp [hparams], by simp [hparams]⟩
  simp only [rotatedPair, List.forall_mem_cons]
  exact ⟨hfixed ⟨_, rfl⟩ rfl, hfixed ⟨_, rfl⟩ rfl, .inr ⟨⟨_, rfl⟩, by decide, nofun⟩,
    hfixed ⟨_, rfl⟩ rfl, nofun⟩

/-- Lowering succeeds exactly if the resources of the circuit can be accounted for and all its
operations are acceptable. Otherwise the error is that of accounting, or if there is none, the
fault of the first operation that is not acceptable, never one about the program itself. -/
theorem lower_outcome (c : Circuit) (o : Options) :
    (∀ x, c.lower o ≠ .error (.malformed x)) ∧
      (c.ShortBitcode o →
        ((∃ p, c.lower o = .ok p) ↔
          (∃ r, Resources.account c = .ok r) ∧ ∀ x ∈ c.operations, x.Acceptable o) ∧
        (∀ e, c.lower o = .error e ↔
          Resources.account c = .error e ∨ (∃ r, Resources.account c = .ok r) ∧
            ∃ position f, Operation.FirstFault o c.operations position f ∧
              e = .operation position f) ∧
        ∀ d, c.lower o ≠ .error (.disagreement d)) := by
  refine ⟨lower_ne_malformed, fun hshort => ⟨⟨?_, ?_⟩, fun e => ⟨?_, ?_⟩, ?_⟩⟩
  · rintro ⟨p, h⟩
    obtain ⟨r, m, hr, hm, -, -⟩ := lower_eq_ok h
    refine ⟨⟨r, hr⟩, ?_⟩
    rcases Operation.acceptable_or_firstFault o c.operations with hall | ⟨_, _, hfirst⟩
    · exact hall
    · rw [toModule_of_firstFault hr hfirst] at hm
      cases hm
  · rintro ⟨⟨r, hr⟩, hall⟩
    exact lower_of_acceptable hshort hr hall
  · intro h
    rcases lower_eq_error h with haccount | ⟨r, hr, hfirst | ⟨_, d, -, rfl⟩⟩
    · exact .inl haccount
    · exact .inr ⟨⟨r, hr⟩, hfirst⟩
    · exact absurd h (lower_ne_disagreement hshort d)
  · rintro (haccount | ⟨⟨r, hr⟩, _, _, hfirst, rfl⟩)
    · exact bind_of_error haccount _
    · rw [lower, bind_of_ok hr]
      exact bind_of_error (toModule_of_firstFault hr hfirst) _
  · exact lower_ne_disagreement hshort

theorem lower_rotatedPair :
    rotatedPair.ShortBitcode .default ∧ ∃ p, rotatedPair.lower .default = .ok p := by
  refine ⟨rotatedPair_shortBitcode, ?_⟩
  exact ((lower_outcome rotatedPair .default).2 rotatedPair_shortBitcode).1.mpr
    ⟨⟨⟨2, 1⟩, account_rotatedPair⟩, rotatedPair_acceptable⟩

/-- Accounting comes before the emission, also where an earlier operation is at fault. -/
example : (Circuit.mk "" 1 [⟨.opaqueGate "u", [0], [], [], none⟩, ⟨.reset, [1], [], [], none⟩]
    []).lower .default = .error (.operation 1 (.reference (.qubit 1 1))) := by
  rfl

end Circuit

end CircuitQir
