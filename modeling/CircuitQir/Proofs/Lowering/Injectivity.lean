import CircuitQir.Proofs.Lowering.Contents
import Mathlib.Data.List.Forall2
/-!
# What a program tells of its circuit

The calls of a program determine the operations they were made for, if no delay and no barrier is
among them (`Circuit.operations_eq_of_lower`): a delay only passes on how long it is, in
whichever unit, and a barrier does not pass its qubits. Of any other operation nothing is left
out. The name of a callee tells of what kind an operation is and how many qubits and parameters it
has (`Intrinsic.find?_inj`), so the qubits that are passed fall into controls and targets, and
what a layout does not pass is not there (`ArgumentLayout.Covers`). The number of a result tells
its register and its place there, because the registers lie one behind the other.
-/

namespace CircuitQir

open Ir

theorem indexOperand_injective : Function.Injective indexOperand := by
  intro m n h
  have hvalue := congrArg UInt64.toNat (Operand.pointer.inj h)
  rw [UInt32.toNat_toUInt64, UInt32.toNat_toUInt64] at hvalue
  exact UInt32.toNat.inj hvalue

/-! ## Kinds and arities -/

namespace OperationKind

/-- Neither a delay nor a barrier. -/
def IsLossless : OperationKind → Prop
  | delay _ | barrier => False
  | _ => True

/-- Whether the second state of a basis is prepared. -/
def isInverted : OperationKind → Bool
  | prepare state => state.isInverted
  | _ => false

end OperationKind

/-- What the layout does not pass, operations of the kind and arity do not have. -/
structure ArgumentLayout.Covers (kind : OperationKind) (a : Arity) (layout : ArgumentLayout) :
    Prop where
  controls : layout = .qubits ∨ a.controls = 0
  targets : layout ≠ .nothing
  params : layout = .angleThenQubits ∨ a.params = 0
  flag : layout = .flagThenQubit ∨ kind.isInverted = false
  result : layout = .qubitThenResult ∨ kind ≠ .measure

namespace Intrinsic

variable {kind kind' : OperationKind} {a a' : Arity} {i : Intrinsic}

/-- The kinds and arities that an intrinsic is called for, apart from delays and barriers. -/
def forms : List (OperationKind × Arity) :=
  [(.unitary .h, ⟨0, 1, 0⟩), (.unitary .x, ⟨0, 1, 0⟩), (.unitary .y, ⟨0, 1, 0⟩),
    (.unitary .z, ⟨0, 1, 0⟩), (.unitary .s, ⟨0, 1, 0⟩), (.unitary .t, ⟨0, 1, 0⟩),
    (.unitary .sx, ⟨0, 1, 0⟩), (.unitary .swap, ⟨0, 2, 0⟩), (.unitary .x, ⟨1, 1, 0⟩),
    (.unitary .y, ⟨1, 1, 0⟩), (.unitary .z, ⟨1, 1, 0⟩), (.unitary .x, ⟨2, 1, 0⟩),
    (.adjoint .s, ⟨0, 1, 0⟩), (.adjoint .t, ⟨0, 1, 0⟩), (.adjoint .sx, ⟨0, 1, 0⟩),
    (.rotation .rx, ⟨0, 1, 1⟩), (.rotation .ry, ⟨0, 1, 1⟩), (.rotation .rz, ⟨0, 1, 1⟩),
    (.rotation .rxx, ⟨0, 2, 1⟩), (.rotation .ryy, ⟨0, 2, 1⟩), (.rotation .rzz, ⟨0, 2, 1⟩),
    (.prepare .zero, ⟨0, 1, 0⟩), (.prepare .one, ⟨0, 1, 0⟩), (.prepare .plus, ⟨0, 1, 0⟩),
    (.prepare .minus, ⟨0, 1, 0⟩), (.measure, ⟨0, 1, 0⟩), (.reset, ⟨0, 1, 0⟩)]

theorem mem_forms_of_find? (hkind : kind.IsLossless) (h : find? kind a = some i) :
    (kind, a) ∈ forms := by
  unfold find? at h
  split at h
  all_goals cases h
  all_goals first
    | exact absurd hkind id
    | decide

/-- An intrinsic that is not told which state to prepare is only called for one kind and arity. -/
theorem nodup_forms :
    (forms.map fun f => (find? f.1 f.2, f.1.isInverted)).Nodup := by
  decide +kernel

/-- The intrinsic tells the kind and the arity, save for which state of a basis is meant. -/
theorem find?_inj (hkind : kind.IsLossless) (hkind' : kind'.IsLossless)
    (h : find? kind a = some i) (h' : find? kind' a' = some i)
    (hinverted : kind.isInverted = kind'.isInverted) : kind = kind' ∧ a = a' := by
  have heq := List.inj_on_of_nodup_map nodup_forms (mem_forms_of_find? hkind h)
    (mem_forms_of_find? hkind' h') (by rw [h, h', hinverted])
  exact Prod.mk.inj heq

theorem covers_of_find? (hkind : kind.IsLossless) (h : find? kind a = some i) :
    i.layout.Covers kind a := by
  unfold find? at h
  split at h
  all_goals cases h
  all_goals first
    | exact absurd hkind id
    | exact ⟨by decide, by decide, by decide, by decide, by decide⟩

end Intrinsic

/-! ## Operations -/

namespace Operation

variable {registers : List Register} {x y : Operation} {layout : ArgumentLayout}
  {args : List Operand}

/-- A call of the operation can be traced back to it: it is neither a delay nor a barrier, it writes
a bit exactly if it is a measurement, and there is such a bit. -/
structure Traceable (registers : List Register) (o : Operation) : Prop where
  lossless : o.kind.IsLossless
  measured : o.kind = .measure ↔ o.result.isSome
  target : ∀ t ∈ o.result, ∃ r, registers.find? (·.id = t.register) = some r ∧
    t.bit.toNat < r.size.toNat ∧ (r.globalIndex t.bit).toNat = r.offset.toNat + t.bit.toNat

namespace Passes

/-! What is passed with each layout. -/

section

variable {o : Operation}

theorem eq_of_qubits (h : Passes registers o .qubits args) : args = o.qubits.map indexOperand := by
  cases h
  rfl

theorem eq_of_angle (h : Passes registers o .angleThenQubits args) :
    ∃ angle rest, o.params = angle :: rest ∧
      args = .double angle :: o.targets.map indexOperand := by
  cases h with
  | angle hparams => exact ⟨_, _, hparams, rfl⟩

theorem eq_of_duration (h : Passes registers o .durationThenQubit args) :
    ∃ value, args = .double value :: o.targets.map indexOperand := by
  cases h
  exact ⟨_, rfl⟩

theorem eq_of_flag (h : Passes registers o .flagThenQubit args) :
    args = .bool o.kind.isInverted :: o.targets.map indexOperand := by
  cases h with
  | flag hkind =>
    rw [hkind]
    rfl

theorem eq_of_result (h : Passes registers o .qubitThenResult args) :
    ∃ t r, o.result = some t ∧ registers.find? (·.id = t.register) = some r ∧
      args = o.targets.map indexOperand ++ [indexOperand (r.globalIndex t.bit)] := by
  cases h with
  | result htarget hr => exact ⟨_, _, htarget, hr, rfl⟩

end

variable (hx : Passes registers x layout args) (hy : Passes registers y layout args)
include hx hy

/-- The same state is prepared, if any is. -/
theorem isInverted_eq (hxc : layout.Covers x.kind (.ofOperation x))
    (hyc : layout.Covers y.kind (.ofOperation y)) : x.kind.isInverted = y.kind.isInverted := by
  by_cases hlayout : layout = .flagThenQubit
  · subst hlayout
    exact Operand.bool.inj (List.cons.inj (hx.eq_of_flag.symm.trans hy.eq_of_flag)).1
  · rw [hxc.flag.resolve_left hlayout, hyc.flag.resolve_left hlayout]

/-- The qubits that are passed fall into controls and targets, since it is known how many of each
there are. -/
theorem qubits_eq (hcovers : layout.Covers x.kind (.ofOperation x))
    (harity : Arity.ofOperation x = .ofOperation y) :
    x.controls = y.controls ∧ x.targets = y.targets := by
  have hcontrols : x.controls.length = y.controls.length := congrArg Arity.controls harity
  have hinj := List.map_injective_iff.mpr indexOperand_injective
  by_cases hlayout : layout = .qubits
  · subst hlayout
    exact List.append_inj (hinj (hx.eq_of_qubits.symm.trans hy.eq_of_qubits)) hcontrols
  · have hnone : x.controls.length = 0 := hcovers.controls.resolve_left hlayout
    constructor
    · rw [List.length_eq_zero_iff.mp hnone,
        List.length_eq_zero_iff.mp (hcontrols.symm.trans hnone)]
    · cases layout with
      | qubits => exact absurd rfl hlayout
      | angleThenQubits =>
        obtain ⟨_, _, -, hxargs⟩ := hx.eq_of_angle
        obtain ⟨_, _, -, hyargs⟩ := hy.eq_of_angle
        exact hinj (List.cons.inj (hxargs.symm.trans hyargs)).2
      | durationThenQubit =>
        obtain ⟨_, hxargs⟩ := hx.eq_of_duration
        obtain ⟨_, hyargs⟩ := hy.eq_of_duration
        exact hinj (List.cons.inj (hxargs.symm.trans hyargs)).2
      | flagThenQubit => exact hinj (List.cons.inj (hx.eq_of_flag.symm.trans hy.eq_of_flag)).2
      | qubitThenResult =>
        obtain ⟨_, _, -, -, hxargs⟩ := hx.eq_of_result
        obtain ⟨_, _, -, -, hyargs⟩ := hy.eq_of_result
        exact hinj (List.append_inj_left' (hxargs.symm.trans hyargs) rfl)
      | nothing => exact absurd rfl hcovers.targets

theorem params_eq (hcovers : layout.Covers x.kind (.ofOperation x))
    (hsuits : layout.Suits x.kind (.ofOperation x))
    (harity : Arity.ofOperation x = .ofOperation y) : x.params = y.params := by
  have hlength : x.params.length = y.params.length := congrArg Arity.params harity
  by_cases hlayout : layout = .angleThenQubits
  · subst hlayout
    have hone : x.params.length = 1 := hsuits
    obtain ⟨angle, rest, hxparams, hxargs⟩ := hx.eq_of_angle
    obtain ⟨angle', rest', hyparams, hyargs⟩ := hy.eq_of_angle
    have hangle := Operand.double.inj (List.cons.inj (hxargs.symm.trans hyargs)).1
    rw [hyparams, hone, List.length_cons] at hlength
    rw [hxparams, List.length_cons] at hone
    rw [hxparams, hyparams, hangle, List.length_eq_zero_iff.mp (by omega : rest.length = 0),
      List.length_eq_zero_iff.mp (by omega : rest'.length = 0)]
  · have hnone : x.params.length = 0 := hcovers.params.resolve_left hlayout
    rw [List.length_eq_zero_iff.mp hnone, List.length_eq_zero_iff.mp (hlength.symm.trans hnone)]

/-- The number of a result tells its register and its place. -/
theorem result_eq (hcovers : layout.Covers x.kind (.ofOperation x)) (hkind : x.kind = y.kind)
    (hlaid : Register.LaidOut 0 registers) (hxt : x.Traceable registers)
    (hyt : y.Traceable registers) : x.result = y.result := by
  by_cases hlayout : layout = .qubitThenResult
  · subst hlayout
    obtain ⟨t, r, ht, hr, hxargs⟩ := hx.eq_of_result
    obtain ⟨t', r', ht', hr', hyargs⟩ := hy.eq_of_result
    have hlast := (List.append_inj' (hxargs.symm.trans hyargs) rfl).2
    have hindex := indexOperand_injective (List.cons.inj hlast).1
    obtain ⟨q, hq, hbit, hvalue⟩ := hxt.target t ht
    obtain rfl := Option.some.inj (hr.symm.trans hq)
    obtain ⟨q', hq', hbit', hvalue'⟩ := hyt.target t' ht'
    obtain rfl := Option.some.inj (hr'.symm.trans hq')
    obtain ⟨rfl, hbits⟩ := hlaid.eq_of_add_eq hbit hbit' (by rw [← hvalue, ← hvalue', hindex])
      (List.mem_of_find?_eq_some hr) (List.mem_of_find?_eq_some hr')
    have hid : r.id = t.register := by simpa using List.find?_some hr
    have hid' : r.id = t'.register := by simpa using List.find?_some hr'
    rw [ht, ht']
    exact congrArg some ((ResultTarget.mk.injEq ..).mpr
      ⟨hid.symm.trans hid', UInt32.toNat.inj hbits⟩)
  · have hmeasure := hcovers.result.resolve_left hlayout
    have hxnone := mt hxt.measured.mpr hmeasure
    have hynone := mt hyt.measured.mpr (hkind ▸ hmeasure)
    rw [Option.not_isSome_iff_eq_none.mp hxnone, Option.not_isSome_iff_eq_none.mp hynone]

end Passes

/-- A call can only have been made for one operation of those that can be traced back. -/
theorem leftUnique_becomes (hlaid : Register.LaidOut 0 registers) :
    Relator.LeftUnique fun (x : Operation) z => x.Traceable registers ∧ x.Becomes registers z := by
  rintro x z y ⟨hxt, hx⟩ ⟨hyt, hy⟩
  obtain ⟨i, args, hxfind, hxargs, rfl⟩ := hx.call
  obtain ⟨j, args', hyfind, hyargs, hcall⟩ := hy.call
  obtain ⟨hname, rfl⟩ := Instruction.call.inj hcall
  have hxserves := Intrinsic.serves_of_find? hxfind
  have hyserves := Intrinsic.serves_of_find? hyfind
  obtain rfl := Intrinsic.eq_of_name_eq (List.mem_append_left _ hxserves.listed)
    (List.mem_append_left _ hyserves.listed) hname
  have hxcovers := Intrinsic.covers_of_find? hxt.lossless hxfind
  have hycovers := Intrinsic.covers_of_find? hyt.lossless hyfind
  obtain ⟨hkind, harity⟩ := Intrinsic.find?_inj hxt.lossless hyt.lossless hxfind hyfind
    (hxargs.isInverted_eq hyargs hxcovers hycovers)
  obtain ⟨hcontrols, htargets⟩ := hxargs.qubits_eq hyargs hxcovers harity
  have hparams := hxargs.params_eq hyargs hxcovers hxserves.suits harity
  have hresult := hxargs.result_eq hyargs hxcovers hkind hlaid hxt hyt
  exact (Operation.mk.injEq ..).mpr ⟨hkind, htargets, hcontrols, hparams, hresult⟩

end Operation

/-! ## Circuits -/

theorem Resources.Accounted.traceable {c : Circuit} {r : Resources} (h : Accounted c r)
    {o : Operation} (ho : o ∈ c.operations) (hkind : o.kind.IsLossless) :
    o.Traceable c.registers := by
  obtain ⟨hmeasured, htarget⟩ := target_of_checkResult (h.checkResult o ho)
  refine ⟨hkind, hmeasured, fun t ht => ?_⟩
  obtain ⟨q, hq, hbit⟩ := htarget t ht
  exact ⟨q, hq, hbit, h.toNat_globalIndex (List.mem_of_find?_eq_some hq) hbit⟩

namespace Circuit

variable {c c' : Circuit} {o : Options} {p p' : Program}

/-- Where there is no barrier, every operation is called for. -/
theorem called_eq_operations (h : ∀ x ∈ c.operations, x.kind.IsLossless) :
    c.called o = c.operations := by
  refine List.filter_eq_self.mpr fun x hx => ?_
  have hkind : x.kind ≠ .barrier := by
    intro hbarrier
    have hlossless := h x hx
    rw [hbarrier] at hlossless
    exact hlossless
  simp [Operation.isCalled, hkind]

/-- Circuits with the same registers have the same operations if their programs have the same
block, unless there are delays or barriers among them. -/
theorem operations_eq_of_lower (hregisters : c.registers = c'.registers)
    (h : c.lower o = .ok p) (h' : c'.lower o = .ok p')
    (hkinds : ∀ x ∈ c.operations, x.kind.IsLossless)
    (hkinds' : ∀ x ∈ c'.operations, x.kind.IsLossless)
    (hblocks : p.module.functions.map (·.blocks) = p'.module.functions.map (·.blocks)) :
    c.operations = c'.operations := by
  obtain ⟨f, b, calls, hf, hb, hcalls, hcontents, -⟩ := lower_contents h
  obtain ⟨f', b', calls', hf', hb', hcalls', hcontents', -⟩ := lower_contents h'
  obtain ⟨r, -, hr, -⟩ := lower_eq_ok h
  obtain ⟨r', -, hr', -⟩ := lower_eq_ok h'
  have haccounted := Resources.accounted_of_account hr
  have haccounted' := Resources.accounted_of_account hr'
  have hrecords : c.records o = c'.records o := by rw [records, records, hregisters]
  have heq : calls = calls' := by
    rw [hf, hf', List.map_singleton, List.map_singleton, hb, hb'] at hblocks
    have hblock : b = b' := (List.cons.inj (List.cons.inj hblocks).1).1
    have hinstructions := hcontents.symm.trans ((congrArg Ir.Block.instructions hblock).trans
      hcontents')
    rw [hrecords] at hinstructions
    have hbody := List.append_cancel_right hinstructions
    exact List.append_cancel_right (List.cons.inj hbody).2
  rw [called_eq_operations hkinds] at hcalls
  rw [called_eq_operations hkinds', ← heq, ← hregisters] at hcalls'
  refine List.left_unique_forall₂' (Operation.leftUnique_becomes haccounted.laidOut)
    ((List.forall₂_and_left _ _).mpr ⟨fun x hx => ?_, hcalls⟩)
    ((List.forall₂_and_left _ _).mpr ⟨fun x hx => ?_, hcalls'⟩)
  · exact haccounted.traceable hx (hkinds x hx)
  · exact hregisters ▸ haccounted'.traceable hx (hkinds' x hx)

/-- Has a name and a number of qubits of its own. -/
def widerPair : Circuit := { rotatedPair with name := "wider", qubitCount := 3 }

theorem account_widerPair : Resources.account widerPair = .ok ⟨3, 1⟩ := by
  decide +kernel

theorem widerPair_shortBitcode : widerPair.ShortBitcode .default :=
  shortBitcode_of_length account_widerPair rfl
    (Bitcode.length_encode_lt_of_extent (by decide +kernel))

/-- The two have the same block, though not the same module. -/
theorem operations_eq_of_widerPair : ∃ p p', rotatedPair.lower .default = .ok p ∧
    widerPair.lower .default = .ok p' ∧ p.module ≠ p'.module ∧
      rotatedPair.operations = widerPair.operations := by
  have hlower := lower_of_toModule rotatedPair_shortBitcode account_rotatedPair rfl
  have hlower' := lower_of_toModule widerPair_shortBitcode account_widerPair rfl
  have hkinds : ∀ x ∈ rotatedPair.operations, x.kind.IsLossless := by
    simp [rotatedPair, OperationKind.IsLossless]
  refine ⟨_, _, hlower, hlower', by decide +kernel, ?_⟩
  exact operations_eq_of_lower rfl hlower hlower' hkinds hkinds rfl

end Circuit

end CircuitQir
