import CircuitQir.Proofs.Lowering.Contents
/-!
# How a program uses its resources

Accounting looks at registers and operations, emission and recording at the numbers of qubits and
bits, and neither asks the other. All the same, a program keeps to the resources it declares
(`Circuit.lower_resources`): accounting found the registers one behind the other, so that adding a
bit to an offset is safe, tells bits apart, and leads through all results in order.
-/

namespace CircuitQir

namespace Ir

/-! ## What an instruction refers to -/

/-- The number that a pointer is made from. -/
def Operand.address? : Operand → Option Nat
  | .pointer n => some n.toNat
  | _ => none

/-- The value of an integer. -/
def Operand.int? : Operand → Option Int
  | .int n => some n.toInt
  | _ => none

namespace Instruction

/-- Whether an intrinsic is called. -/
def calls (i : Intrinsic) (x : Instruction) : Bool := x.callee? = some i.name

/-- The results that are measured into: a measurement has the qubit first, then the result. -/
def measured (x : Instruction) : List Nat :=
  if x.calls .measure then (x.args.drop 1).filterMap Operand.address? else []

/-- The results that are recorded. -/
def recorded (x : Instruction) : List Nat :=
  if x.calls .recordResult then x.args.filterMap Operand.address? else []

/-- The qubits that are passed, which are all pointers but those to results. -/
def qubits (x : Instruction) : List Nat :=
  if x.calls .measure then (x.args.take 1).filterMap Operand.address?
  else if x.calls .recordResult then []
  else x.args.filterMap Operand.address?

/-- The sizes of arrays that are recorded. -/
def sizes (x : Instruction) : List Int :=
  if x.calls .recordArray then x.args.filterMap Operand.int? else []

end Instruction

/-- The measurements of a block. -/
def Block.measurements (b : Block) : List Instruction := b.instructions.filter (·.calls .measure)

end Ir

open Ir

/-- The measurements of a circuit. -/
def Circuit.measurements (c : Circuit) : List Operation := c.operations.filter (·.kind = .measure)

/-- A block for a circuit keeps to its resources. -/
structure Resources.Cover (r : Resources) (c : Circuit) (o : Options) (b : Block) : Prop where
  qubits : ∀ x ∈ b.instructions, ∀ n ∈ x.qubits, n < r.qubits.toNat
  results : ∀ x ∈ b.instructions, ∀ n ∈ x.measured ++ x.recorded, n < r.results.toNat
  /-- There is one call for each measurement, in order. -/
  count : c.measurements.length = b.measurements.length
  /-- A call measures into one result. -/
  single : ∀ x ∈ b.measurements, ∃ n, x.measured = [n]
  /-- Two calls measure into the same result where the measurements write the same bit. -/
  same : ∀ p ∈ c.measurements.zip b.measurements, ∀ q ∈ c.measurements.zip b.measurements,
    p.2.measured = q.2.measured ↔ p.1.result = q.1.result
  /-- The numbers of all bits can be added up. -/
  index : ∀ q ∈ c.registers, ∀ bit < q.size,
    (q.globalIndex bit).toNat = q.offset.toNat + bit.toNat
  /-- Measurements write bits that there are. -/
  target : ∀ x ∈ c.operations, ∀ t ∈ x.result,
    ∃ q, c.register? t.register = some q ∧ t.bit < q.size
  /-- Every qubit of an operation has a next one. -/
  next : ∀ x ∈ c.operations, ∀ q ∈ x.qubits, (q + 1).toNat = q.toNat + 1
  /-- All results are recorded, in order and each of them once. -/
  recorded : o.recordOutput →
    b.instructions.flatMap Instruction.recorded = List.range r.results.toNat
  sizes : o.recordOutput →
    (b.instructions.flatMap Instruction.sizes).foldr (· + ·) 0 = (r.results.toNat : Int)

/-! ## Calls of operations -/

theorem address?_indexOperand (n : UInt32) : (indexOperand n).address? = some n.toNat := by
  simp [indexOperand, Operand.address?]

theorem filterMap_address? (qs : List UInt32) :
    (qs.map indexOperand).filterMap Operand.address? = qs.map UInt32.toNat := by
  rw [List.filterMap_map, ← List.filterMap_eq_map]
  exact List.filterMap_congr fun q _ => address?_indexOperand q

namespace Intrinsic

theorem eq_measure_of_find? {a : Arity} {i : Intrinsic} (h : find? .measure a = some i) :
    i = measure ∧ a = ⟨0, 1, 0⟩ := by
  unfold find? at h
  split at h
  all_goals simp_all

end Intrinsic

theorem Ir.Instruction.calls_call (i : Intrinsic) (callee : String) (args : List Operand) :
    (Instruction.call callee args).calls i = decide (callee = i.name) := by
  simp [calls, callee?]

namespace Operation

variable {registers : List Register} {o : Operation} {x : Instruction}

/-- Whatever the layout, the pointers that are passed are the qubits, unless there is a result. -/
theorem Passes.addresses {layout : ArgumentLayout} {args : List Operand}
    (h : Passes registers o layout args) (hlayout : layout ≠ .qubitThenResult) :
    ∀ n ∈ args.filterMap Operand.address?, ∃ q ∈ o.qubits, q.toNat = n := by
  have htargets : ∀ n ∈ (o.targets.map indexOperand).filterMap Operand.address?,
      ∃ q ∈ o.qubits, q.toNat = n := by
    rw [filterMap_address?]
    intro n hn
    obtain ⟨q, hq, rfl⟩ := List.mem_map.mp hn
    exact ⟨q, List.mem_append_right _ hq, rfl⟩
  cases h with
  | qubits =>
    rw [filterMap_address?]
    exact fun n hn => List.mem_map.mp hn
  | angle | duration | flag => exact htargets
  | result => exact absurd rfl hlayout
  | nothing => exact nofun

/-- A measurement becomes a call with its qubit and the number of its bit. -/
theorem Becomes.measure (h : o.Becomes registers x) (hkind : o.kind = .measure) :
    x.calls .measure = true ∧ x.recorded = [] ∧ x.sizes = [] ∧
      (∀ n ∈ x.qubits, ∃ q ∈ o.qubits, q.toNat = n) ∧
      ∃ t r, o.result = some t ∧ registers.find? (·.id = t.register) = some r ∧
        x.measured = [r.offset.toNat + t.bit.toNat] := by
  obtain ⟨i, args, hfind, hpasses, rfl⟩ := h.call
  rw [hkind] at hfind
  obtain ⟨rfl, harity⟩ := Intrinsic.eq_measure_of_find? hfind
  obtain ⟨q, htargets⟩ := List.length_eq_one_iff.mp (congrArg Arity.targets harity)
  obtain ⟨t, r, ht, hr, rfl⟩ : ∃ t r, o.result = some t ∧
      registers.find? (·.id = t.register) = some r ∧
      args = o.targets.map indexOperand ++ [indexOperand (r.globalIndex t.bit)] := by
    cases hpasses with
    | result ht hr => exact ⟨_, _, ht, hr, rfl⟩
  obtain ⟨r', hr', hindex⟩ := h.target t ht
  obtain rfl := Option.some.inj (hr.symm.trans hr')
  have hcalls : (Instruction.call Intrinsic.measure.name
      (o.targets.map indexOperand ++ [indexOperand (r.globalIndex t.bit)])).calls .measure = true :=
    decide_eq_true rfl
  refine ⟨hcalls, rfl, rfl, ?_, t, r, ht, hr, ?_⟩
  · rw [Instruction.qubits, if_pos hcalls, htargets]
    intro n hn
    have hn : n = q.toNat := by
      simpa [Instruction.args, address?_indexOperand] using hn
    exact ⟨q, by simp [qubits, htargets], hn.symm⟩
  · rw [Instruction.measured, if_pos hcalls, htargets, ← hindex]
    simp [Instruction.args, address?_indexOperand]

/-- Other operations are passed their qubits alone. -/
theorem Becomes.other (h : o.Becomes registers x) (hkind : o.kind ≠ .measure) :
    x.calls .measure = false ∧ x.measured = [] ∧ x.recorded = [] ∧ x.sizes = [] ∧
      ∀ n ∈ x.qubits, ∃ q ∈ o.qubits, q.toNat = n := by
  obtain ⟨i, args, hfind, hpasses, rfl⟩ := h.call
  have hserves := Intrinsic.serves_of_find? hfind
  have hno {j : Intrinsic} (hj : j ∈ Intrinsic.runtime) :
      (Instruction.call i.name args).calls j = false := by
    rw [Instruction.calls_call]
    exact decide_eq_false (Intrinsic.name_ne_of_listed hserves.listed hj)
  have hmeasure : (Instruction.call i.name args).calls .measure = false := by
    rw [Instruction.calls_call]
    refine decide_eq_false fun hname => hkind ?_
    obtain rfl := Intrinsic.eq_of_name_eq (List.mem_append_left _ hserves.listed)
      (by simp [Intrinsic.catalog, Intrinsic.instructions]) hname
    exact hserves.suits
  have hresult := hno (j := Intrinsic.recordResult) (by simp [Intrinsic.runtime])
  have harray := hno (j := Intrinsic.recordArray) (by simp [Intrinsic.runtime])
  refine ⟨hmeasure, ?_, ?_, ?_, ?_⟩
  · simp [Instruction.measured, hmeasure]
  · simp [Instruction.recorded, hresult]
  · simp [Instruction.sizes, harray]
  · intro n hn
    have hlayout : i.layout ≠ .qubitThenResult := by
      intro hlayout
      have hsuits := hserves.suits
      rw [hlayout] at hsuits
      exact hkind hsuits
    refine hpasses.addresses hlayout n ?_
    simpa [Instruction.qubits, hmeasure, hresult, Instruction.args] using hn

/-- Only qubits of an operation are passed as qubits. -/
theorem Becomes.qubits_subset (h : o.Becomes registers x) :
    ∀ n ∈ x.qubits, ∃ q ∈ o.qubits, q.toNat = n := by
  by_cases hkind : o.kind = .measure
  · obtain ⟨-, -, -, hqubits, -⟩ := h.measure hkind
    exact hqubits
  · obtain ⟨-, -, -, -, hqubits⟩ := h.other hkind
    exact hqubits

/-- The call of an operation records nothing. -/
theorem Becomes.records_nothing (h : o.Becomes registers x) : x.recorded = [] ∧ x.sizes = [] := by
  by_cases hkind : o.kind = .measure
  · obtain ⟨-, hrecorded, hsizes, -⟩ := h.measure hkind
    exact ⟨hrecorded, hsizes⟩
  · obtain ⟨-, -, hrecorded, hsizes, -⟩ := h.other hkind
    exact ⟨hrecorded, hsizes⟩

end Operation

/-! ## Records -/

namespace Register

theorem recorded_recordResult {n : Nat} (h : n < 2 ^ 64) :
    (Instruction.call Intrinsic.recordResult.name [.pointer (UInt64.ofNat n), .null]).recorded =
      [n] := by
  show [(UInt64.ofNat n).toNat] = _
  rw [UInt64.toNat_ofNat', Nat.mod_eq_of_lt h]

theorem sizes_recordArray (n : UInt32) :
    (Instruction.call Intrinsic.recordArray.name [.int (Int64.ofNat n.toNat), .null]).sizes =
      [(n.toNat : Int)] := by
  show [(Int64.ofNat n.toNat).toInt] = _
  have := n.toNat_lt
  rw [Int64.toInt_ofNat_of_lt (by omega)]

/-- Recording measures nothing and uses no qubits. -/
theorem uses_of_mem_records {r : Register} {x : Instruction} (hx : x ∈ r.records) :
    x.calls .measure = false ∧ x.measured = [] ∧ x.qubits = [] := by
  rcases List.mem_cons.mp hx with rfl | hx
  · exact ⟨rfl, rfl, rfl⟩
  · obtain ⟨n, -, rfl⟩ := List.mem_map.mp hx
    exact ⟨rfl, rfl, rfl⟩

/-- The bits of a register are recorded under their numbers. -/
theorem recorded_records {r : Register} (h : r.offset.toNat + r.size.toNat < 2 ^ 64) :
    r.records.flatMap Instruction.recorded = r.addresses := by
  have hone : ∀ n ∈ r.addresses,
      (Instruction.call Intrinsic.recordResult.name
        [.pointer (UInt64.ofNat n), .null]).recorded = [n] := by
    intro n hn
    obtain ⟨bit, hbit, rfl⟩ := List.mem_map.mp hn
    have := List.mem_range.mp hbit
    exact recorded_recordResult (by omega)
  rw [records, List.flatMap_cons, List.flatMap_map]
  show [] ++ _ = _
  rw [List.nil_append, List.flatMap_congr hone, List.flatMap_singleton']

/-- For each register one size is recorded. -/
theorem sizes_records (r : Register) :
    r.records.flatMap Instruction.sizes = [(r.size.toNat : Int)] := by
  rw [records, List.flatMap_cons, sizes_recordArray, List.flatMap_map]
  have hnone : r.addresses.flatMap (fun n =>
      (Instruction.call Intrinsic.recordResult.name
        [.pointer (UInt64.ofNat n), .null]).sizes) = [] :=
    List.flatMap_eq_nil_iff.mpr fun _ _ => rfl
  rw [hnone, List.append_nil]

theorem foldr_sizes : ∀ rs : List Register,
    ((rs.flatMap records).flatMap Instruction.sizes).foldr (· + ·) 0 = (totalSize rs : Int)
  | [] => rfl
  | r :: rs => by
    rw [List.flatMap_cons, List.flatMap_append, sizes_records, List.singleton_append,
      List.foldr_cons, foldr_sizes rs, totalSize, Int.natCast_add]

/-- Registers that lie one behind the other are recorded bit by bit. -/
theorem LaidOut.recorded_records {rs : List Register} {start : Nat} (h : LaidOut start rs)
    (hsize : start + totalSize rs < 2 ^ 64) :
    (rs.flatMap records).flatMap Instruction.recorded = List.range' start (totalSize rs) := by
  have hall : ∀ r ∈ rs, r.records.flatMap Instruction.recorded = r.addresses := by
    intro r hr
    have := h.bounds hr
    exact Register.recorded_records (by omega)
  rw [List.flatMap_assoc, List.flatMap_congr hall, h.flatMap_addresses]

end Register

/-! ## Programs -/

theorem Circuit.mem_of_register? {c : Circuit} {id : String} {q : Register}
    (h : c.register? id = some q) : q ∈ c.registers ∧ q.id = id :=
  ⟨List.mem_of_find?_eq_some h, by simpa using List.find?_some h⟩

namespace Resources

variable {c : Circuit} {o : Options} {r : Resources} {calls : List Instruction} {b : Block}

/-- The block of a program: some calls are those of the operations, and the rest are its
beginning, the records and its end. -/
structure Emitted (c : Circuit) (o : Options) (calls : List Instruction) (b : Block) : Prop where
  becomes : List.Forall₂ (Operation.Becomes c.registers) (c.called o) calls
  instructions : b.instructions =
    .call Intrinsic.initialization.name [.null] :: (calls ++ c.records o) ++ [.ret]

theorem mem_of_mem_records {x : Instruction} (hx : x ∈ c.records o) :
    ∃ q ∈ c.registers, x ∈ q.records := by
  unfold Circuit.records at hx
  split at hx
  · exact List.mem_flatMap.mp hx
  · cases hx

namespace Emitted

/-- What is in such a block comes from an operation or a register, or refers to nothing. -/
theorem origin (h : Emitted c o calls b) {y : Instruction} (hy : y ∈ b.instructions) :
    (∃ x ∈ c.operations, x.Becomes c.registers y) ∨ (∃ q ∈ c.registers, y ∈ q.records) ∨
      y.qubits = [] ∧ y.measured = [] ∧ y.recorded = [] := by
  rw [h.instructions, List.mem_append, List.mem_cons, List.mem_append, List.mem_singleton] at hy
  rcases hy with (rfl | hy | hy) | rfl
  · exact .inr (.inr ⟨rfl, rfl, rfl⟩)
  · obtain ⟨x, hx, hxy⟩ := exists_of_mem_right h.becomes hy
    exact .inl ⟨x, List.mem_of_mem_filter hx, hxy⟩
  · exact .inr (.inl (mem_of_mem_records hy))
  · exact .inr (.inr ⟨rfl, rfl, rfl⟩)

/-- What the operations have nothing to do with comes from the records. -/
theorem flatMap_eq (h : Emitted c o calls b) {α : Type} {f : Instruction → List α}
    (hstart : f (.call Intrinsic.initialization.name [.null]) = [])
    (hnone : ∀ x y, Operation.Becomes c.registers x y → f y = []) (hret : f .ret = []) :
    b.instructions.flatMap f = (c.records o).flatMap f := by
  have hempty : calls.flatMap f = [] := by
    refine List.flatMap_eq_nil_iff.mpr fun y hy => ?_
    obtain ⟨x, -, hxy⟩ := exists_of_mem_right h.becomes hy
    exact hnone x y hxy
  rw [h.instructions, List.flatMap_append, List.flatMap_cons, List.flatMap_append, hempty, hstart,
    List.flatMap_singleton, hret, List.nil_append, List.nil_append, List.append_nil]

/-- The calls of measurements stand in the order of the measurements. -/
theorem measurements (h : Emitted c o calls b) :
    List.Forall₂ (Operation.Becomes c.registers) c.measurements b.measurements := by
  have hoperations : c.measurements = (c.called o).filter (·.kind = .measure) := by
    rw [Circuit.measurements, Circuit.called, List.filter_filter]
    refine List.filter_congr fun x _ => ?_
    by_cases hkind : x.kind = .measure <;> simp [Operation.isCalled, hkind]
  have hrecords : (c.records o).filter (·.calls .measure) = [] := by
    refine List.filter_eq_nil_iff.mpr fun x hx => ?_
    obtain ⟨q, -, hx⟩ := mem_of_mem_records hx
    rw [(Register.uses_of_mem_records hx).1]
    exact Bool.false_ne_true
  have hinstructions : b.measurements = calls.filter (·.calls .measure) := by
    rw [Block.measurements, h.instructions, List.filter_append, List.filter_cons_of_neg (by decide),
      List.filter_append, hrecords, List.append_nil, List.filter_cons_of_neg (by decide),
      List.filter_nil, List.append_nil]
  rw [hoperations, hinstructions]
  refine List.rel_filter (fun x y hxy => ?_) h.becomes
  by_cases hkind : x.kind = .measure
  · simp [hkind, (hxy.measure hkind).1]
  · simp [hkind, (hxy.other hkind).1]

end Emitted

namespace Accounted

/-- A measurement is passed the number of a bit that there is. -/
theorem measured (h : Accounted c r) {x : Operation} {y : Instruction} (hx : x ∈ c.measurements)
    (hxy : x.Becomes c.registers y) : ∃ t q, x.result = some t ∧
      c.register? t.register = some q ∧ t.bit.toNat < q.size.toNat ∧
      y.measured = [q.offset.toNat + t.bit.toNat] := by
  obtain ⟨hx, hkind⟩ := List.mem_filter.mp hx
  obtain ⟨-, -, -, -, t, q, ht, hq, hmeasured⟩ := hxy.measure (of_decide_eq_true hkind)
  obtain ⟨q', hq', hbit⟩ := (target_of_checkResult (h.checkResult x hx)).2 t ht
  obtain rfl := Option.some.inj (hq.symm.trans hq')
  exact ⟨t, q, ht, hq, hbit, hmeasured⟩

/-- Measurements are passed the same number exactly if they write the same bit. -/
theorem measured_eq_iff (h : Accounted c r) {x x' : Operation} {y y' : Instruction}
    (hx : x ∈ c.measurements) (hx' : x' ∈ c.measurements) (hxy : x.Becomes c.registers y)
    (hxy' : x'.Becomes c.registers y') : y.measured = y'.measured ↔ x.result = x'.result := by
  obtain ⟨⟨id, bit⟩, q, ht, hq, hbit, hmeasured⟩ := h.measured hx hxy
  obtain ⟨⟨id', bit'⟩, q', ht', hq', hbit', hmeasured'⟩ := h.measured hx' hxy'
  obtain ⟨hmem, rfl⟩ := Circuit.mem_of_register? hq
  obtain ⟨hmem', rfl⟩ := Circuit.mem_of_register? hq'
  rw [hmeasured, hmeasured', ht, ht']
  constructor
  · intro heq
    obtain ⟨rfl, hsame⟩ :=
      Register.LaidOut.eq_of_add_eq hbit hbit' (List.singleton_inj.mp heq) h.laidOut hmem hmem'
    have hbits : bit = bit' := UInt32.toNat_inj.mp hsame
    rw [hbits]
  · intro heq
    obtain ⟨hid, rfl⟩ := ResultTarget.mk.inj (Option.some.inj heq)
    rw [hid] at hq
    obtain rfl := Option.some.inj (hq.symm.trans hq')
    rfl

/-- What is recorded are all results in order, or nothing. -/
theorem recorded_records (h : Accounted c r) (ho : o.recordOutput) :
    (c.records o).flatMap Instruction.recorded = List.range r.results.toNat := by
  have hlt := r.results.toNat_lt
  have hrange := h.laidOut.recorded_records (by rw [← h.results]; omega)
  rw [← h.results, ← List.range_eq_range'] at hrange
  rw [Circuit.records, ← h.results]
  split
  · exact hrange
  · rename_i hnone
    have hzero : r.results.toNat = 0 := by
      have := not_and.mp hnone ho
      omega
    rw [hzero]
    rfl

/-- The sizes that are recorded are those of all registers. -/
theorem sizes_records (h : Accounted c r) (ho : o.recordOutput) :
    ((c.records o).flatMap Instruction.sizes).foldr (· + ·) 0 = (r.results.toNat : Int) := by
  rw [Circuit.records, ← h.results]
  split
  · rw [Register.foldr_sizes, h.results]
  · rename_i hnone
    have := not_and.mp hnone ho
    show (0 : Int) = _
    omega

/-- A bit has a number below the number of results. -/
theorem add_lt_results (h : Accounted c r) {q : Register} (hq : q ∈ c.registers) {bit : Nat}
    (hbit : bit < q.size.toNat) : q.offset.toNat + bit < r.results.toNat := by
  have hbounds := h.laidOut.bounds hq
  rw [h.results]
  omega

/-- Every result that an instruction refers to is there. -/
theorem lt_results (h : Accounted c r) (hemitted : Emitted c o calls b) :
    ∀ y ∈ b.instructions, ∀ n ∈ y.measured ++ y.recorded, n < r.results.toNat := by
  intro y hy n hn
  rcases hemitted.origin hy with ⟨x, hx, hxy⟩ | ⟨q, hq, hy⟩ | ⟨-, hmeasured, hrecorded⟩
  · rw [hxy.records_nothing.1, List.append_nil] at hn
    by_cases hkind : x.kind = .measure
    · have hx : x ∈ c.measurements := List.mem_filter.mpr ⟨hx, decide_eq_true hkind⟩
      obtain ⟨t, q, -, hq, hbit, hmeasured⟩ := h.measured hx hxy
      rw [hmeasured, List.mem_singleton] at hn
      rw [hn]
      exact h.add_lt_results (Circuit.mem_of_register? hq).1 hbit
    · obtain ⟨-, hmeasured, -⟩ := hxy.other hkind
      rw [hmeasured] at hn
      cases hn
  · obtain ⟨-, hmeasured, -⟩ := Register.uses_of_mem_records hy
    rw [hmeasured, List.nil_append] at hn
    have hbounds := h.laidOut.bounds hq
    have hlt := r.results.toNat_lt
    rw [h.results] at hlt
    have haddresses : n ∈ q.addresses := by
      rw [← Register.recorded_records (by omega)]
      exact List.mem_flatMap.mpr ⟨y, hy, hn⟩
    obtain ⟨bit, hbit, rfl⟩ := List.mem_map.mp haddresses
    exact h.add_lt_results hq (List.mem_range.mp hbit)
  · rw [hmeasured, hrecorded] at hn
    cases hn

/-- Every qubit that an instruction refers to is there. -/
theorem lt_qubits (h : Accounted c r) (hemitted : Emitted c o calls b) :
    ∀ y ∈ b.instructions, ∀ n ∈ y.qubits, n < r.qubits.toNat := by
  intro y hy n hn
  rcases hemitted.origin hy with ⟨x, hx, hxy⟩ | ⟨q, -, hy⟩ | ⟨hqubits, -⟩
  · obtain ⟨q, hq, rfl⟩ := hxy.qubits_subset n hn
    have hlt := UInt32.lt_iff_toNat_lt.mp (h.lt_qubitCount x hx q hq)
    have hle := UInt32.le_iff_toNat_le.mp h.qubitCount
    omega
  · rw [(Register.uses_of_mem_records hy).2.2] at hn
    cases hn
  · rw [hqubits] at hn
    cases hn

/-- A block with the calls of the operations and the records keeps to the resources. -/
theorem cover (h : Accounted c r) (hemitted : Emitted c o calls b) : Cover r c o b := by
  have hmeasurements := hemitted.measurements
  refine ⟨h.lt_qubits hemitted, h.lt_results hemitted, hmeasurements.length_eq,
    ?single, ?same, ?index, ?target, ?next, ?recorded, ?sizes⟩
  case single =>
    intro y hy
    obtain ⟨x, hx, hxy⟩ := exists_of_mem_right hmeasurements hy
    obtain ⟨_, _, -, -, -, hmeasured⟩ := h.measured hx hxy
    exact ⟨_, hmeasured⟩
  case same =>
    rintro ⟨x, y⟩ hp ⟨x', y'⟩ hq
    exact h.measured_eq_iff (List.of_mem_zip hp).1 (List.of_mem_zip hq).1
      (List.forall₂_zip hmeasurements hp) (List.forall₂_zip hmeasurements hq)
  case index =>
    intro q hq bit hbit
    exact h.toNat_globalIndex hq (UInt32.lt_iff_toNat_lt.mp hbit)
  case target =>
    intro x hx t ht
    obtain ⟨q, hq, hbit⟩ := (target_of_checkResult (h.checkResult x hx)).2 t ht
    exact ⟨q, hq, UInt32.lt_iff_toNat_lt.mpr hbit⟩
  case next =>
    intro x hx q hq
    have hlt := UInt32.lt_iff_toNat_lt.mp (h.lt_qubitCount x hx q hq)
    have hcount := c.qubitCount.toNat_lt
    show (q.toNat + 1) % 2 ^ 32 = _
    exact Nat.mod_eq_of_lt (by omega)
  case recorded =>
    intro ho
    rw [hemitted.flatMap_eq rfl (fun _ _ hxy => hxy.records_nothing.1) rfl]
    exact h.recorded_records ho
  case sizes =>
    intro ho
    rw [hemitted.flatMap_eq rfl (fun _ _ hxy => hxy.records_nothing.2) rfl]
    exact h.sizes_records ho

end Accounted

end Resources

namespace Circuit

variable {c : Circuit} {o : Options} {p : Program}

/-- A program declares the resources it is given, as decimal numbers among the attributes of its
entry point, and keeps to them. -/
theorem lower_resources (h : c.lower o = .ok p) : ∃ f b g,
    p.module.functions = [f] ∧ f.blocks = [b] ∧ p.module.groupOf? f = some g ∧
      g.value? "requiredQubits" = some (Numeral.ofNat p.resources.qubits.toNat) ∧
      g.value? "requiredResults" = some (Numeral.ofNat p.resources.results.toNat) ∧
      p.resources.Cover c o b := by
  obtain ⟨r, m, hr, hm, -, rfl⟩ := lower_eq_ok h
  obtain ⟨b, calls, rfl, hcalls, hinstructions⟩ := toModule_contents hr hm
  have hemitted : Resources.Emitted c o calls ⟨"entry", b.instructions ++ [.ret]⟩ :=
    ⟨hcalls, by rw [hinstructions]⟩
  exact ⟨_, _, EntryBlock.entryPointGroup r o.profile, rfl, rfl, EntryBlock.groupOf?_finish rfl,
    EntryBlock.requiredQubits_entryPointGroup r _, EntryBlock.requiredResults_entryPointGroup r _,
    (Resources.accounted_of_account hr).cover hemitted⟩

/-- Three registers, the second of which is empty, and a bit that is written twice. -/
def rewrittenBit : Circuit where
  name := ""
  qubitCount := 2
  operations :=
    [⟨.measure, [0], [], [], some ⟨"c", 1⟩⟩, ⟨.reset, [0], [], [], none⟩,
      ⟨.measure, [1], [], [], some ⟨"a", 0⟩⟩, ⟨.measure, [0], [], [], some ⟨"c", 1⟩⟩]
  registers := [⟨"a", 1, 0⟩, ⟨"b", 0, 1⟩, ⟨"c", 2, 1⟩]

theorem lower_resources_of_rewrittenBit : ∃ p f b,
    rewrittenBit.lower .default = .ok p ∧ p.resources = ⟨2, 3⟩ ∧ p.module.functions = [f] ∧
      f.blocks = [b] ∧ p.resources.Cover rewrittenBit .default b ∧
      b.instructions.flatMap Instruction.recorded = [0, 1, 2] := by
  have haccount : Resources.account rewrittenBit = .ok ⟨2, 3⟩ := by decide +kernel
  have hshort : rewrittenBit.ShortBitcode .default := by
    intro r m hr hm
    obtain rfl := Except.ok.inj (haccount.symm.trans hr)
    obtain rfl := Except.ok.inj hm
    exact Bitcode.length_encode_lt_of_extent (by decide +kernel)
  have hlower := lower_of_toModule hshort haccount rfl
  obtain ⟨f, b, g, hf, hb, -, -, -, hcover⟩ := lower_resources hlower
  exact ⟨_, f, b, hlower, rfl, hf, hb, hcover, hcover.recorded rfl⟩

end Circuit

end CircuitQir
