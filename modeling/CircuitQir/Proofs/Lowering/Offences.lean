import CircuitQir.Proofs.Lists
import CircuitQir.Proofs.Lowering.Accounting
import CircuitQir.Proofs.Scans
/-!
# What accounting reports

Accounting accepts the sound circuits (`Circuit.Sound`) and no others: those whose registers have
different ids and fill the results from zero on, and whose operations use different qubits that
there are and write bits that there are. Of a circuit that is not sound it reports the first
offence (`Circuit.Offence`). Registers come before operations, and in an operation the qubits come
before the result. Registers, operations and qubits are each checked along a list, so each time
there is a first element that does not follow those before it.
-/

namespace CircuitQir

/-! ## Registers -/

namespace Register

/-- Registers have different ids and lie one behind the other from zero on, and there is a number
of 32 bits for how many bits they have. -/
structure Arranged (rs : List Register) : Prop where
  nodup : (rs.map Register.id).Nodup
  laidOut : LaidOut 0 rs
  fits : totalSize rs < 2 ^ 32

/-- What is wrong with a register behind others. An id that was there before is, wherever the
register lies; and only a register that lies where it should can be too large. -/
inductive Misplaced (before : List Register) (r : Register) : LayoutIssue → Prop
  | duplicate (hid : r.id ∈ before.map Register.id) : Misplaced before r .duplicate
  | overlap {expected : UInt32} (hid : r.id ∉ before.map Register.id)
    (hexpected : expected.toNat = totalSize before) (hoffset : r.offset < expected) :
    Misplaced before r (.overlap r.offset expected)
  | gap {expected : UInt32} (hid : r.id ∉ before.map Register.id)
    (hexpected : expected.toNat = totalSize before) (hoffset : expected < r.offset) :
    Misplaced before r (.gap r.offset expected)
  | tooLarge (hid : r.id ∉ before.map Register.id) (hoffset : r.offset.toNat = totalSize before)
    (hsize : 2 ^ 32 ≤ totalSize before + r.size.toNat) : Misplaced before r .tooLarge

variable {before rs : List Register} {r : Register} {issue : LayoutIssue}

theorem totalSize_append : ∀ before rs : List Register,
    totalSize (before ++ rs) = totalSize before + totalSize rs
  | [], rs => (Nat.zero_add _).symm
  | r :: before, rs => by
    rw [List.cons_append, totalSize, totalSize_append before rs, totalSize, Nat.add_assoc]

theorem totalSize_concat (before : List Register) (r : Register) :
    totalSize (before ++ [r]) = totalSize before + r.size.toNat :=
  totalSize_append before [r]

theorem laidOut_concat : ∀ {before : List Register} {start : Nat},
    LaidOut start (before ++ [r]) ↔
      LaidOut start before ∧ r.offset.toNat = start + totalSize before
  | [], start => by simp [LaidOut, totalSize]
  | q :: before, start => by
    simp only [List.cons_append, LaidOut, laidOut_concat, totalSize, and_assoc, Nat.add_assoc]

theorem arranged_nil : Arranged [] := ⟨List.nodup_nil, trivial, by decide⟩

theorem Arranged.toNat_totalSize (h : Arranged rs) :
    (UInt32.ofNat (totalSize rs)).toNat = totalSize rs := by
  rw [UInt32.toNat_ofNat']
  exact Nat.mod_eq_of_lt h.fits

/-- What it takes for a register to follow others. -/
theorem arranged_concat : Arranged (before ++ [r]) ↔ Arranged before ∧
    r.id ∉ before.map Register.id ∧ r.offset.toNat = totalSize before ∧
      totalSize before + r.size.toNat < 2 ^ 32 := by
  have hnodup : ((before ++ [r]).map Register.id).Nodup ↔
      (before.map Register.id).Nodup ∧ r.id ∉ before.map Register.id := by
    rw [List.map_append, List.nodup_append', List.map_singleton, List.disjoint_singleton]
    simp only [List.nodup_singleton, true_and]
  constructor
  · intro h
    obtain ⟨hbefore, hid⟩ := hnodup.mp h.nodup
    obtain ⟨hlaid, hoffset⟩ := laidOut_concat.mp h.laidOut
    have hfits := h.fits
    rw [totalSize_concat] at hfits
    exact ⟨⟨hbefore, hlaid, by omega⟩, hid, by omega, hfits⟩
  · rintro ⟨h, hid, hoffset, hfits⟩
    refine ⟨hnodup.mpr ⟨h.nodup, hid⟩, laidOut_concat.mpr ⟨h.laidOut, by omega⟩, ?_⟩
    rwa [totalSize_concat]

/-- A register follows others, or something is wrong with it. -/
theorem arranged_or_misplaced (r : Register) (h : Arranged before) :
    Arranged (before ++ [r]) ∨ ∃ issue, Misplaced before r issue := by
  have hexpected := h.toNat_totalSize
  by_cases hid : r.id ∈ before.map Register.id
  · exact .inr ⟨_, .duplicate hid⟩
  rcases Nat.lt_trichotomy r.offset.toNat (totalSize before) with hlt | heq | hgt
  · right
    refine ⟨_, .overlap hid hexpected ?_⟩
    rwa [UInt32.lt_iff_toNat_lt, hexpected]
  · rcases Nat.lt_or_ge (totalSize before + r.size.toNat) (2 ^ 32) with hfits | hlarge
    · exact .inl (arranged_concat.mpr ⟨h, hid, heq, hfits⟩)
    · exact .inr ⟨_, .tooLarge hid heq hlarge⟩
  · right
    refine ⟨_, .gap hid hexpected ?_⟩
    rwa [UInt32.lt_iff_toNat_lt, hexpected]

end Register

namespace Resources

open Register

/-- The check of registers goes along them. What it carries are the ids and the total size of the
registers before. -/
theorem scans_checkRegisters :
    Scans (fun before rest =>
        checkRegisters (before.map Register.id).reverse (UInt32.ofNat (totalSize before)) rest)
      Arranged (fun before r e => ∃ issue, Misplaced before r issue ∧ e = .layout r.id issue) where
  nil := arranged_nil
  of_concat h := (arranged_concat.mp h).1
  pass {before r} rest h := by
    obtain ⟨hbefore, hid, hoffset, hfits⟩ := arranged_concat.mp h
    have hexpected : r.offset = UInt32.ofNat (totalSize before) := by
      rw [← hoffset, UInt32.ofNat_toNat]
    have hnew : (before.map Register.id).reverse.contains r.id = false := by
      simpa using hid
    have hsum : UInt32.ofNat (totalSize (before ++ [r])) = r.offset + r.size := by
      rw [totalSize_concat, ← hoffset, UInt32.ofNat_add, UInt32.ofNat_toNat, UInt32.ofNat_toNat]
    rw [checkRegisters, ← hexpected, hnew, if_neg Bool.false_ne_true, if_neg (UInt32.lt_irrefl _),
      if_neg (UInt32.lt_irrefl _), if_pos (by rwa [hoffset]), hsum, List.map_append,
      List.reverse_append]
    rfl
  stop {before r e} rest h hflaw := by
    obtain ⟨issue, hmisplaced, rfl⟩ := hflaw
    have hexpected {expected : UInt32} (hexpected : expected.toNat = totalSize before) :
        UInt32.ofNat (totalSize before) = expected := by
      rw [← hexpected, UInt32.ofNat_toNat]
    have hnew (hid : r.id ∉ before.map Register.id) :
        (before.map Register.id).reverse.contains r.id = false := by
      simpa using hid
    rw [checkRegisters]
    cases hmisplaced with
    | duplicate hid =>
      have hseen : (before.map Register.id).reverse.contains r.id = true := by
        simpa using hid
      rw [hseen, if_pos rfl]
    | overlap hid htotal hoffset =>
      rw [hnew hid, if_neg Bool.false_ne_true, hexpected htotal, if_pos hoffset]
    | gap hid htotal hoffset =>
      rw [hnew hid, if_neg Bool.false_ne_true, hexpected htotal,
        if_neg (UInt32.lt_asymm hoffset), if_pos hoffset]
    | tooLarge hid hoffset hsize =>
      rw [hnew hid, if_neg Bool.false_ne_true, hexpected hoffset, if_neg (UInt32.lt_irrefl _),
        if_neg (UInt32.lt_irrefl _), if_neg (by omega)]
  sound_or_flaw r h := by
    rcases arranged_or_misplaced r h with harranged | ⟨issue, hmisplaced⟩
    · exact .inl harranged
    · exact .inr ⟨_, issue, hmisplaced, rfl⟩
  accept _ := ⟨_, rfl⟩

theorem checkRegisters_eq_ok_iff {rs : List Register} {n : UInt32} :
    checkRegisters [] 0 rs = .ok n ↔ Arranged rs ∧ n.toNat = totalSize rs := by
  refine scans_checkRegisters.eq_ok_iff.trans (and_congr_right fun h => ?_)
  have hn : n.toNat = totalSize rs ↔ UInt32.ofNat (totalSize rs) = n := by
    rw [← UInt32.toNat_inj, h.toNat_totalSize]
    exact eq_comm
  rw [hn]
  exact ⟨Except.ok.inj, congrArg Except.ok⟩

theorem checkRegisters_eq_error_iff {rs : List Register} {e : Error} :
    checkRegisters [] 0 rs = .error e ↔ ∃ before r after, rs = before ++ r :: after ∧
      Arranged before ∧ ∃ issue, Misplaced before r issue ∧ e = .layout r.id issue :=
  scans_checkRegisters.eq_error_iff

end Resources

/-! ## Operations -/

/-- Qubits of one operation: all of them exist, and none is there twice. -/
structure Distinct (qubitCount : UInt32) (qs : List UInt32) : Prop where
  lt : ∀ q ∈ qs, q < qubitCount
  nodup : qs.Nodup

/-- What is wrong with a qubit behind others. One that does not exist is not taken for repeated. -/
inductive BadQubit (qubitCount : UInt32) (before : List UInt32) (q : UInt32) :
    OperationFault → Prop
  | missing (hq : qubitCount ≤ q) :
    BadQubit qubitCount before q (.reference (.qubit q qubitCount))
  | repeated (hq : q < qubitCount) (hmem : q ∈ before) :
    BadQubit qubitCount before q (.reference (.repeatedQubit q))

namespace Operation

/-- The operation has a result exactly if it measures, and the result is a bit of a register. -/
structure WritesBit (registers : List Register) (o : Operation) : Prop where
  measures : o.result.isSome ↔ o.kind = .measure
  target : ∀ t ∈ o.result, ∃ r ∈ registers, r.id = t.register ∧ t.bit < r.size

/-- What is wrong with the result of an operation. -/
inductive BadResult (registers : List Register) (o : Operation) : OperationFault → Prop
  | missing (hkind : o.kind = .measure) (hresult : o.result = none) :
    BadResult registers o (.reference .missingResult)
  | unexpected {t : ResultTarget} (hkind : o.kind ≠ .measure) (hresult : o.result = some t) :
    BadResult registers o (.reference .unexpectedResult)
  | unknown {t : ResultTarget} (hkind : o.kind = .measure) (hresult : o.result = some t)
    (hid : t.register ∉ registers.map Register.id) :
    BadResult registers o (.reference (.unknownRegister t.register))
  | outside {t : ResultTarget} {r : Register} (hkind : o.kind = .measure)
    (hresult : o.result = some t) (hr : r ∈ registers) (hid : r.id = t.register)
    (hbit : r.size ≤ t.bit) : BadResult registers o (.reference (.bit r.id t.bit r.size))

/-- The operation can stand in the circuit. -/
structure SoundIn (c : Circuit) (o : Operation) : Prop where
  qubits : Distinct c.qubitCount o.qubits
  result : o.WritesBit c.registers

/-- What is wrong with an operation: its first bad qubit, the controls before the targets, or if
there is none its result. -/
inductive Offence (c : Circuit) (o : Operation) : OperationFault → Prop
  | qubit {before after : List UInt32} {q : UInt32} {f : OperationFault}
    (hqubits : o.qubits = before ++ q :: after) (hbefore : Distinct c.qubitCount before)
    (hq : BadQubit c.qubitCount before q f) : Offence c o f
  | result {f : OperationFault} (hqubits : Distinct c.qubitCount o.qubits)
    (hresult : o.BadResult c.registers f) : Offence c o f

end Operation

namespace Resources

open Register

variable {c : Circuit} {o : Operation}

/-- The check of qubits goes along them and carries those it has seen. -/
theorem scans_checkQubits (qubitCount : UInt32) :
    Scans (fun before rest => checkQubits qubitCount before.reverse rest) (Distinct qubitCount)
      (BadQubit qubitCount) where
  nil := ⟨nofun, List.nodup_nil⟩
  of_concat h := ⟨(List.forall_mem_append.mp h.lt).1, (List.nodup_append'.mp h.nodup).1⟩
  pass {before q} rest h := by
    have hlt : q < qubitCount := h.lt q (by simp)
    have hnew : before.reverse.contains q = false := by
      simpa using (List.disjoint_singleton.mp (List.nodup_append'.mp h.nodup).2.2)
    rw [checkQubits, if_neg (UInt32.not_le.mpr hlt), hnew, if_neg Bool.false_ne_true,
      List.reverse_append]
    rfl
  stop {before q f} rest h hflaw := by
    rw [checkQubits]
    cases hflaw with
    | missing hq => rw [if_pos hq]
    | repeated hq hmem =>
      have hseen : before.reverse.contains q = true := by
        simpa using hmem
      rw [if_neg (UInt32.not_le.mpr hq), hseen, if_pos rfl]
  sound_or_flaw {before} q h := by
    by_cases hq : qubitCount ≤ q
    · exact .inr ⟨_, .missing hq⟩
    have hlt := UInt32.not_le.mp hq
    by_cases hmem : q ∈ before
    · exact .inr ⟨_, .repeated hlt hmem⟩
    · left
      refine ⟨List.forall_mem_append.mpr ⟨h.lt, List.forall_mem_singleton.mpr hlt⟩, ?_⟩
      rw [List.nodup_append']
      exact ⟨h.nodup, List.nodup_singleton q, List.disjoint_singleton.mpr hmem⟩
  accept _ := ⟨(), rfl⟩

theorem checkQubits_eq_ok_iff {qubitCount : UInt32} {qs : List UInt32} :
    checkQubits qubitCount [] qs = .ok () ↔ Distinct qubitCount qs := by
  refine (scans_checkQubits qubitCount).eq_ok_iff.trans ?_
  exact and_iff_left rfl

theorem checkQubits_eq_error_iff {qubitCount : UInt32} {qs : List UInt32} {f : OperationFault} :
    checkQubits qubitCount [] qs = .error f ↔ ∃ before q after, qs = before ++ q :: after ∧
      Distinct qubitCount before ∧ BadQubit qubitCount before q f :=
  (scans_checkQubits qubitCount).eq_error_iff

/-- Where ids differ, an id belongs to one register. -/
theorem register?_eq_some_iff (hnodup : (c.registers.map Register.id).Nodup) {id : String}
    {r : Register} : c.register? id = some r ↔ r ∈ c.registers ∧ r.id = id := by
  constructor
  · intro h
    exact ⟨List.mem_of_find?_eq_some h, by simpa using List.find?_some h⟩
  · rintro ⟨hr, rfl⟩
    exact find?_name hnodup hr

theorem register?_eq_none_iff {id : String} :
    c.register? id = none ↔ id ∉ c.registers.map Register.id := by
  simp [Circuit.register?]

theorem checkResult_of_writesBit (hnodup : (c.registers.map Register.id).Nodup)
    (h : o.WritesBit c.registers) : checkResult c o = .ok () := by
  rw [checkResult]
  cases hresult : o.result with
  | none =>
    have hkind : o.kind.isMeasurement = false :=
      decide_eq_false fun hkind => by simpa [hresult] using h.measures.mpr hkind
    rw [hkind]
  | some t =>
    obtain ⟨r, hr, hid, hbit⟩ := h.target t hresult
    have hkind : o.kind.isMeasurement = true :=
      decide_eq_true (h.measures.mp (by rw [hresult]; rfl))
    rw [hkind]
    dsimp only
    rw [(register?_eq_some_iff hnodup).mpr ⟨hr, hid⟩]
    exact if_pos hbit

theorem checkResult_of_badResult (hnodup : (c.registers.map Register.id).Nodup)
    {f : OperationFault} (h : o.BadResult c.registers f) : checkResult c o = .error f := by
  have hmeasures (hkind : o.kind = .measure) : o.kind.isMeasurement = true := decide_eq_true hkind
  rw [checkResult]
  cases h with
  | missing hkind hresult => rw [hmeasures hkind, hresult]
  | unexpected hkind hresult =>
    have hkind : o.kind.isMeasurement = false := decide_eq_false hkind
    rw [hkind, hresult]
  | unknown hkind hresult hid =>
    rw [hmeasures hkind, hresult]
    dsimp only
    rw [register?_eq_none_iff.mpr hid]
  | outside hkind hresult hr hid hbit =>
    rw [hmeasures hkind, hresult]
    dsimp only
    rw [(register?_eq_some_iff hnodup).mpr ⟨hr, hid⟩]
    exact if_neg (UInt32.not_lt.mpr hbit)

theorem writesBit_or_badResult (registers : List Register) (o : Operation) :
    o.WritesBit registers ∨ ∃ f, o.BadResult registers f := by
  by_cases hkind : o.kind = .measure
  · cases hresult : o.result with
    | none => exact .inr ⟨_, .missing hkind hresult⟩
    | some t =>
      by_cases hid : t.register ∈ registers.map Register.id
      · obtain ⟨r, hr, hid⟩ := List.mem_map.mp hid
        by_cases hbit : t.bit < r.size
        · left
          refine ⟨by simp [hresult, hkind], ?_⟩
          intro t' ht'
          obtain rfl := Option.some.inj (hresult.symm.trans ht')
          exact ⟨r, hr, hid, hbit⟩
        · exact .inr ⟨_, .outside hkind hresult hr hid (UInt32.not_lt.mp hbit)⟩
      · exact .inr ⟨_, .unknown hkind hresult hid⟩
  · cases hresult : o.result with
    | none => exact .inl ⟨by simp [hresult, hkind], by simp [hresult]⟩
    | some t => exact .inr ⟨_, .unexpected hkind hresult⟩

theorem checkOperation_of_soundIn (hnodup : (c.registers.map Register.id).Nodup)
    (h : o.SoundIn c) : checkOperation c o = .ok () := by
  rw [checkOperation, bind_of_ok (checkQubits_eq_ok_iff.mpr h.qubits)]
  exact checkResult_of_writesBit hnodup h.result

theorem checkOperation_of_offence (hnodup : (c.registers.map Register.id).Nodup)
    {f : OperationFault} (h : o.Offence c f) : checkOperation c o = .error f := by
  rw [checkOperation]
  cases h with
  | qubit hqubits hbefore hq =>
    exact bind_of_error (checkQubits_eq_error_iff.mpr ⟨_, _, _, hqubits, hbefore, hq⟩) _
  | result hqubits hresult =>
    rw [bind_of_ok (checkQubits_eq_ok_iff.mpr hqubits)]
    exact checkResult_of_badResult hnodup hresult

theorem soundIn_or_offence (c : Circuit) (o : Operation) :
    o.SoundIn c ∨ ∃ f, o.Offence c f := by
  rcases (scans_checkQubits c.qubitCount).sound_or_first o.qubits with
    hqubits | ⟨before, q, after, f, hqubits, hbefore, hq⟩
  · rcases writesBit_or_badResult c.registers o with hresult | ⟨f, hresult⟩
    · exact .inl ⟨hqubits, hresult⟩
    · exact .inr ⟨f, .result hqubits hresult⟩
  · exact .inr ⟨f, .qubit hqubits hbefore hq⟩

/-- The check of operations goes along them and carries how many came before. -/
theorem scans_checkOperations (hnodup : (c.registers.map Register.id).Nodup) :
    Scans (fun before rest => checkOperations c before.length rest)
      (fun os => ∀ o ∈ os, o.SoundIn c)
      (fun before o e => ∃ f, o.Offence c f ∧ e = .operation before.length f) where
  nil := nofun
  of_concat h := (List.forall_mem_append.mp h).1
  pass {before o} rest h := by
    have ho := checkOperation_of_soundIn hnodup (h o (by simp))
    rw [checkOperations, ho, List.length_append]
    rfl
  stop rest _ hflaw := by
    obtain ⟨f, ho, rfl⟩ := hflaw
    rw [checkOperations, checkOperation_of_offence hnodup ho]
  sound_or_flaw o h := by
    rcases soundIn_or_offence c o with ho | ⟨f, ho⟩
    · exact .inl (List.forall_mem_append.mpr ⟨h, List.forall_mem_singleton.mpr ho⟩)
    · exact .inr ⟨_, f, ho, rfl⟩
  accept _ := ⟨(), rfl⟩

theorem checkOperations_eq_ok_iff (hnodup : (c.registers.map Register.id).Nodup)
    {os : List Operation} : checkOperations c 0 os = .ok () ↔ ∀ o ∈ os, o.SoundIn c := by
  refine (scans_checkOperations hnodup).eq_ok_iff.trans ?_
  exact and_iff_left rfl

theorem checkOperations_eq_error_iff (hnodup : (c.registers.map Register.id).Nodup)
    {os : List Operation} {e : Error} : checkOperations c 0 os = .error e ↔
      ∃ before o after, os = before ++ o :: after ∧ (∀ p ∈ before, p.SoundIn c) ∧
        ∃ f, o.Offence c f ∧ e = .operation before.length f :=
  (scans_checkOperations hnodup).eq_error_iff

end Resources

/-! ## Circuits -/

namespace Circuit

/-- Registers and operations of the circuit fit together. -/
structure Sound (c : Circuit) : Prop where
  registers : Register.Arranged c.registers
  operations : ∀ o ∈ c.operations, o.SoundIn c

/-- What is wrong with a circuit: the first register that does not follow those before it, or where
all registers do, the first operation that cannot stand in it. -/
inductive Offence (c : Circuit) : Error → Prop
  | register {before after : List Register} {r : Register} {issue : LayoutIssue}
    (hregisters : c.registers = before ++ r :: after) (hbefore : Register.Arranged before)
    (hr : Register.Misplaced before r issue) : Offence c (.layout r.id issue)
  | operation {before after : List Operation} {o : Operation} {f : OperationFault}
    (hregisters : Register.Arranged c.registers) (hoperations : c.operations = before ++ o :: after)
    (hbefore : ∀ p ∈ before, p.SoundIn c) (ho : o.Offence c f) :
    Offence c (.operation before.length f)

end Circuit

namespace Resources

open Register

variable {c : Circuit}

/-- Qubits that exist anyway do not need more. -/
theorem qubitsNeeded_of_lt {count : UInt32} : ∀ {qs : List UInt32}, (∀ q ∈ qs, q < count) →
    qubitsNeeded count qs = count
  | [], _ => rfl
  | q :: qs, h => by
    obtain ⟨hq, hqs⟩ := List.forall_mem_cons.mp h
    have hnext : (q + 1).toNat ≤ count.toNat := by
      rw [UInt32.lt_iff_toNat_lt] at hq
      rw [UInt32.toNat_add]
      exact Nat.le_trans (Nat.mod_le _ _) hq
    have hmax : max count (q + 1) = count := by
      show (if count ≤ q + 1 then q + 1 else count) = count
      split
      · rename_i hle
        exact UInt32.le_antisymm (UInt32.le_iff_toNat_le.mpr hnext) hle
      · rfl
    show qubitsNeeded (max count (q + 1)) qs = count
    rw [hmax]
    exact qubitsNeeded_of_lt hqs

theorem qubitsNeeded_of_sound (h : ∀ o ∈ c.operations, o.SoundIn c) :
    qubitsNeeded c.qubitCount (c.operations.flatMap Operation.qubits) = c.qubitCount := by
  refine qubitsNeeded_of_lt ?_
  intro q hq
  obtain ⟨o, ho, hq⟩ := List.mem_flatMap.mp hq
  exact (h o ho).qubits.lt q hq

theorem account_eq_ok_iff {r : Resources} : account c = .ok r ↔
    c.Sound ∧ r.qubits = c.qubitCount ∧ r.results.toNat = totalSize c.registers := by
  constructor
  · intro h
    obtain ⟨results, hregisters, h⟩ := bind_eq_ok h
    obtain ⟨⟨⟩, hoperations, h⟩ := bind_eq_ok h
    obtain rfl := Except.ok.inj h
    obtain ⟨harranged, hresults⟩ := checkRegisters_eq_ok_iff.mp hregisters
    have hsound := (checkOperations_eq_ok_iff harranged.nodup).mp hoperations
    exact ⟨⟨harranged, hsound⟩, qubitsNeeded_of_sound hsound, hresults⟩
  · rintro ⟨hsound, hqubits, hresults⟩
    have hregisters := checkRegisters_eq_ok_iff.mpr ⟨hsound.registers, hresults⟩
    have hoperations := (checkOperations_eq_ok_iff hsound.registers.nodup).mpr hsound.operations
    rw [account, bind_of_ok hregisters, bind_of_ok hoperations,
      qubitsNeeded_of_sound hsound.operations, ← hqubits]
    rfl

theorem account_eq_error_iff {e : Error} : account c = .error e ↔ c.Offence e := by
  constructor
  · intro h
    rcases bind_eq_error h with hregisters | ⟨results, hregisters, h⟩
    · obtain ⟨before, r, after, hrs, hbefore, issue, hr, rfl⟩ :=
        checkRegisters_eq_error_iff.mp hregisters
      exact .register hrs hbefore hr
    · have harranged := (checkRegisters_eq_ok_iff.mp hregisters).1
      rcases bind_eq_error h with hoperations | ⟨_, -, h⟩
      · obtain ⟨before, o, after, hos, hbefore, f, ho, rfl⟩ :=
          (checkOperations_eq_error_iff harranged.nodup).mp hoperations
        exact .operation harranged hos hbefore ho
      · cases h
  · intro h
    rw [account]
    cases h with
    | register hrs hbefore hr =>
      exact bind_of_error
        (checkRegisters_eq_error_iff.mpr ⟨_, _, _, hrs, hbefore, _, hr, rfl⟩) _
    | operation harranged hos hbefore ho =>
      have hregisters := checkRegisters_eq_ok_iff.mpr ⟨harranged, harranged.toNat_totalSize⟩
      have hoperations := (checkOperations_eq_error_iff harranged.nodup).mpr
        ⟨_, _, _, hos, hbefore, _, ho, rfl⟩
      rw [bind_of_ok hregisters]
      exact bind_of_error hoperations _

/-- Accounting accepts the circuits that are sound, whose resources are the qubits they declare and
the bits of their registers. Of any other circuit it reports the first offence. -/
theorem account_outcome (c : Circuit) :
    (∀ r, account c = .ok r ↔ c.Sound ∧ r.qubits = c.qubitCount ∧
      r.results.toNat = totalSize c.registers) ∧
    ∀ e, account c = .error e ↔ c.Offence e :=
  ⟨fun _ => account_eq_ok_iff, fun _ => account_eq_error_iff⟩

/-- Two faults in one circuit: the register is named, and not the operation. -/
example : account ⟨"", 1, [⟨.reset, [1], [], [], none⟩], [⟨"a", 2, 0⟩, ⟨"a", 1, 5⟩]⟩ =
    .error (.layout "a" .duplicate) := by
  decide

end Resources

end CircuitQir
