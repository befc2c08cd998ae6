import CircuitQir.Lowering.Emission
import CircuitQir.Proofs.Assembly.Grammar
import CircuitQir.Proofs.Checked
/-!
# What intrinsics are passed

The catalog states what parameters an intrinsic has and, apart from that, in which layout an
operation passes its arguments. The two agree: what an operation passes to the intrinsic found for
it has the types of the parameters (`takes_of_callOf`). For that, the layout must suit the
operation for which the intrinsic is found, so that no argument is missing (`serves_of_find?`).
-/

namespace CircuitQir

open Ir

/-! ## Layouts -/

namespace ArgumentLayout

/-- The types of what an operation of some arity passes. -/
def types (a : Arity) : ArgumentLayout → List ValueType
  | qubits => List.replicate (a.controls + a.targets) .ptr
  | angleThenQubits => .double :: List.replicate a.targets .ptr
  | durationThenQubit => .double :: List.replicate a.targets .ptr
  | flagThenQubit => .i1 :: List.replicate a.targets .ptr
  | qubitThenResult => List.replicate a.targets .ptr ++ [.ptr]
  | nothing => []

/-- Operations of the kind and arity have what the layout asks for. -/
def Suits (kind : OperationKind) (a : Arity) : ArgumentLayout → Prop
  | qubits => True
  | angleThenQubits => a.params = 1
  | durationThenQubit => (∃ unit, kind = .delay unit) ∧ a.params = 1
  | flagThenQubit => ∃ state, kind = .prepare state
  | qubitThenResult => kind = .measure
  | nothing => True

end ArgumentLayout

namespace Intrinsic

/-! ## The catalog -/

/-- Every intrinsic there is. -/
def catalog : List Intrinsic := instructions ++ runtime

theorem nodup_names : (catalog.map name).Nodup := by
  decide +kernel

theorem isName_of_mem {i : Intrinsic} (hi : i ∈ catalog) : Assembly.IsName i.name := by
  have hall : catalog.all fun i => decide (Assembly.IsName i.name) := by decide +kernel
  exact of_decide_eq_true (List.all_eq_true.mp hall i hi)

/-- An intrinsic is known by its name. -/
theorem eq_of_name_eq {i j : Intrinsic} (hi : i ∈ catalog) (hj : j ∈ catalog)
    (h : i.name = j.name) : i = j :=
  List.inj_on_of_nodup_map nodup_names hi hj h

/-- What an operation becomes is no function of the runtime. -/
theorem name_ne_of_listed {i j : Intrinsic} (hi : i ∈ instructions) (hj : j ∈ runtime) :
    i.name ≠ j.name := by
  have hnodup := nodup_names
  rw [catalog, List.map_append, List.nodup_append] at hnodup
  exact hnodup.2.2 _ (List.mem_map_of_mem hi) _ (List.mem_map_of_mem hj)

/-- Only the group of irreversible intrinsics is referred to. -/
theorem groupId?_of_mem {i : Intrinsic} (hi : i ∈ catalog) {id : UInt32}
    (hid : i.attributes.groupId? = some id) : id = 1 := by
  have hall : catalog.all fun i => i.attributes.groupId?.all (· = 1) := by decide
  have h := List.all_eq_true.mp hall i hi
  rw [hid] at h
  exact of_decide_eq_true h

theorem mem_catalog_of_runtime {i : Intrinsic} (hi : i ∈ runtime) : i ∈ catalog :=
  List.mem_append_right _ hi

theorem initialization_mem_catalog : initialization ∈ catalog :=
  mem_catalog_of_runtime (by simp [runtime])

/-! ## Finding an intrinsic -/

/-- The intrinsic is one that can be called for operations of the kind and arity. -/
structure Serves (i : Intrinsic) (kind : OperationKind) (a : Arity) : Prop where
  listed : i ∈ instructions
  params : i.params = i.layout.types a
  suits : i.layout.Suits kind a

theorem serves_of_find? {kind : OperationKind} {a : Arity} {i : Intrinsic}
    (h : find? kind a = some i) : i.Serves kind a := by
  unfold find? at h
  split at h
  all_goals cases h
  all_goals
    refine ⟨by simp [instructions], rfl, ?_⟩
    first
      | exact trivial
      | exact rfl
      | exact ⟨_, rfl⟩
      | exact ⟨⟨_, rfl⟩, rfl⟩

/-- Only delays have a duration, and all delays that can be lowered have one. -/
theorem eq_delay_of_find? {unit : TimeUnit} {a : Arity} {i : Intrinsic}
    (h : find? (.delay unit) a = some i) : i = delay := by
  unfold find? at h
  split at h
  all_goals simp_all

/-! ## Passing arguments -/

/-- The arguments are such as the intrinsic is passed: they have the types of its parameters, and
the numbers among them are finite. -/
structure Takes (i : Intrinsic) (args : List Operand) : Prop where
  types : args.map Operand.type = i.params
  finite : ∀ d, .double d ∈ args → d.isFinite = true

end Intrinsic

namespace Operation

/-- What an operation passes with each layout. -/
inductive Passes (registers : List Register) (o : Operation) :
    ArgumentLayout → List Operand → Prop
  | qubits : Passes registers o .qubits (o.qubits.map indexOperand)
  | angle {angle : Double} {rest : List Double} (hparams : o.params = angle :: rest) :
    Passes registers o .angleThenQubits (.double angle :: o.targets.map indexOperand)
  | duration {unit : TimeUnit} {duration : Double} {rest : List Double}
    (hkind : o.kind = .delay unit) (hparams : o.params = duration :: rest)
    (hfinite : (unit.toMicroseconds duration).isFinite = true) :
    Passes registers o .durationThenQubit
      (.double (unit.toMicroseconds duration) :: o.targets.map indexOperand)
  | flag {state : BasisState} (hkind : o.kind = .prepare state) :
    Passes registers o .flagThenQubit (.bool state.isInverted :: o.targets.map indexOperand)
  | result {target : ResultTarget} {r : Register} (htarget : o.result = some target)
    (hr : registers.find? (·.id = target.register) = some r) :
    Passes registers o .qubitThenResult
      (o.targets.map indexOperand ++ [indexOperand (r.globalIndex target.bit)])
  | nothing : Passes registers o .nothing []

variable {registers : List Register} {o : Operation} {layout : ArgumentLayout}
  {args : List Operand}

theorem resultOperand_eq_ok {result : Operand} (h : o.resultOperand registers = .ok result) :
    ∃ target r, o.result = some target ∧ registers.find? (·.id = target.register) = some r ∧
      result = indexOperand (r.globalIndex target.bit) := by
  unfold resultOperand at h
  split at h
  · cases h
  · rename_i target htarget
    split at h
    · rename_i r hr
      obtain rfl := Except.ok.inj h
      exact ⟨target, r, htarget, hr, rfl⟩
    · cases h

theorem passes_of_arguments (h : o.arguments registers layout = .ok args) :
    Passes registers o layout args := by
  cases layout with
  | qubits =>
    obtain rfl := Except.ok.inj h
    exact .qubits
  | angleThenQubits =>
    simp only [arguments] at h
    split at h
    · rename_i hparams
      obtain rfl := Except.ok.inj h
      exact .angle hparams
    · cases h
  | durationThenQubit =>
    simp only [arguments] at h
    split at h
    · rename_i hkind hparams
      split at h
      · rename_i hfinite
        obtain rfl := Except.ok.inj h
        exact .duration hkind hparams hfinite
      · cases h
    · cases h
  | flagThenQubit =>
    simp only [arguments] at h
    split at h
    · rename_i hkind
      obtain rfl := Except.ok.inj h
      exact .flag hkind
    · cases h
  | qubitThenResult =>
    obtain ⟨result, hresult, h⟩ := bind_eq_ok h
    obtain rfl := Except.ok.inj h
    obtain ⟨target, r, htarget, hr, rfl⟩ := resultOperand_eq_ok hresult
    exact .result htarget hr
  | nothing =>
    obtain rfl := Except.ok.inj h
    exact .nothing

theorem arguments_of_passes (h : Passes registers o layout args) :
    o.arguments registers layout = .ok args := by
  cases h with
  | qubits => rfl
  | angle hparams => simp only [arguments, hparams]
  | duration hkind hparams hfinite => simp only [arguments, hkind, hparams, hfinite, if_true]
  | flag hkind => simp only [arguments, hkind]
  | result htarget hr =>
    simp only [arguments, resultOperand, htarget, hr]
    rfl
  | nothing => rfl

/-- What is passed depends on the layout as the relation says. -/
theorem arguments_eq_ok_iff :
    o.arguments registers layout = .ok args ↔ Passes registers o layout args :=
  ⟨passes_of_arguments, arguments_of_passes⟩

theorem type_indexOperand (qubits : List UInt32) :
    (qubits.map indexOperand).map Operand.type = List.replicate qubits.length .ptr := by
  rw [List.map_map]
  exact List.map_const (l := qubits) (b := ValueType.ptr)

/-- Whatever the layout, the arguments have the types that go with it. -/
theorem Passes.types (h : Passes registers o layout args) :
    args.map Operand.type = layout.types (.ofOperation o) := by
  cases h with
  | qubits =>
    rw [type_indexOperand, Operation.qubits, List.length_append]
    rfl
  | angle | duration | flag =>
    rw [List.map_cons, type_indexOperand]
    rfl
  | result =>
    rw [List.map_append, type_indexOperand]
    rfl
  | nothing => rfl

/-- The numbers among the arguments are the parameter or the duration, which is checked. -/
theorem Passes.finite (h : Passes registers o layout args)
    (hparams : ∀ p ∈ o.params, p.isFinite = true) {d : Double} (hd : .double d ∈ args) :
    d.isFinite = true := by
  have hqubits (qubits : List UInt32) : .double d ∉ qubits.map indexOperand := by
    simp [indexOperand]
  cases h with
  | qubits => exact absurd hd (hqubits _)
  | angle hangle =>
    rcases List.mem_cons.mp hd with heq | hd
    · obtain rfl := Operand.double.inj heq
      exact hparams d (by simp [hangle])
    · exact absurd hd (hqubits _)
  | duration _ _ hfinite =>
    rcases List.mem_cons.mp hd with heq | hd
    · obtain rfl := Operand.double.inj heq
      exact hfinite
    · exact absurd hd (hqubits _)
  | flag =>
    rcases List.mem_cons.mp hd with heq | hd
    · cases heq
    · exact absurd hd (hqubits _)
  | result =>
    rcases List.mem_append.mp hd with hd | hd
    · exact absurd hd (hqubits _)
    · cases List.mem_singleton.mp hd
  | nothing => cases hd

/-- How an operation comes to a call: an intrinsic stands for it, its parameters are finite, and it
has what the layout of the intrinsic asks for. -/
theorem callOf_eq_ok {i : Intrinsic} (h : o.callOf registers = .ok (i, args)) :
    Intrinsic.find? o.kind (.ofOperation o) = some i ∧ (∀ p ∈ o.params, p.isFinite = true) ∧
      Passes registers o i.layout args := by
  unfold callOf at h
  split at h
  · cases h
  · rename_i j hfind
    split at h
    · cases h
    · rename_i hnone
      obtain ⟨args', hargs, h⟩ := bind_eq_ok h
      obtain ⟨rfl, rfl⟩ := Prod.mk.inj (Except.ok.inj h)
      have hparams : ∀ p ∈ o.params, p.isFinite = true := by
        simpa using List.find?_eq_none.mp hnone
      exact ⟨hfind, hparams, passes_of_arguments hargs⟩

/-- An operation becomes a call of an intrinsic in the catalog, with arguments that it takes. -/
theorem takes_of_callOf {i : Intrinsic} (h : o.callOf registers = .ok (i, args)) :
    i ∈ Intrinsic.catalog ∧ i.Takes args := by
  obtain ⟨hfind, hparams, hpasses⟩ := callOf_eq_ok h
  have hserves := Intrinsic.serves_of_find? hfind
  refine ⟨List.mem_append_left _ hserves.listed, ?_, fun d hd => hpasses.finite hparams hd⟩
  rw [hserves.params, hpasses.types]

end Operation

end CircuitQir
