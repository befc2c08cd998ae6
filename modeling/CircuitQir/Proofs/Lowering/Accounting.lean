import CircuitQir.Lowering.Resources
import CircuitQir.Proofs.Checked
/-!
# What accounting has seen to

A circuit whose resources have been accounted for has its registers one behind the other
(`Register.LaidOut`), and its operations refer to qubits and bits that there are. So every bit of a
register has a number of its own below the number of results, and no sum on the way to such a
number leaves 32 bits.
-/

namespace CircuitQir

/-! ## Registers -/

namespace Register

/-- How many bits some registers have together. -/
def totalSize : List Register → Nat
  | [] => 0
  | r :: rs => r.size.toNat + totalSize rs

/-- Registers lie one behind the other, the first of them from a number on. -/
def LaidOut (start : Nat) : List Register → Prop
  | [] => True
  | r :: rs => r.offset.toNat = start ∧ LaidOut (start + r.size.toNat) rs

/-- The numbers of the bits of a register. -/
def addresses (r : Register) : List Nat := (List.range r.size.toNat).map (r.offset.toNat + ·)

variable {r s : Register}

theorem LaidOut.bounds : ∀ {rs : List Register} {start : Nat}, LaidOut start rs → r ∈ rs →
    start ≤ r.offset.toNat ∧ r.offset.toNat + r.size.toNat ≤ start + totalSize rs
  | q :: rs, start, ⟨hoffset, hrest⟩, hr => by
    rw [totalSize]
    rcases List.mem_cons.mp hr with rfl | hr
    · omega
    · have := hrest.bounds hr
      omega

/-- A number belongs to one bit of one register at most. -/
theorem LaidOut.eq_of_add_eq {a b : Nat} (ha : a < r.size.toNat) (hb : b < s.size.toNat)
    (heq : r.offset.toNat + a = s.offset.toNat + b) :
    ∀ {rs : List Register} {start : Nat}, LaidOut start rs → r ∈ rs → s ∈ rs → r = s ∧ a = b
  | q :: rs, start, ⟨hoffset, hrest⟩, hr, hs => by
    rcases List.mem_cons.mp hr with rfl | hr'
    · rcases List.mem_cons.mp hs with rfl | hs'
      · exact ⟨rfl, by omega⟩
      · have := hrest.bounds hs'
        omega
    · rcases List.mem_cons.mp hs with rfl | hs'
      · have := hrest.bounds hr'
        omega
      · exact hrest.eq_of_add_eq ha hb heq hr' hs'

/-- Between them, the registers have each number once and in order. -/
theorem LaidOut.flatMap_addresses : ∀ {rs : List Register} {start : Nat}, LaidOut start rs →
    rs.flatMap addresses = List.range' start (totalSize rs)
  | [], _, _ => rfl
  | r :: rs, start, ⟨hoffset, hrest⟩ => by
    rw [List.flatMap_cons, hrest.flatMap_addresses, totalSize, ← List.range'_append_1, addresses,
      hoffset, ← List.range'_eq_map_range]

end Register

namespace Resources

open Register

/-- Registers that pass the check are laid out from the expected number on, and none has an id
that was seen before. -/
theorem laidOut_of_checkRegisters {n : UInt32} : ∀ {rs : List Register} {seen : List String}
    {expected : UInt32}, checkRegisters seen expected rs = .ok n →
      LaidOut expected.toNat rs ∧ n.toNat = expected.toNat + totalSize rs
  | [], _, expected, h => by
    obtain rfl := Except.ok.inj h
    exact ⟨trivial, rfl⟩
  | r :: rs, seen, expected, h => by
    unfold checkRegisters at h
    split at h
    · cases h
    split at h
    · cases h
    rename_i hbelow
    split at h
    · cases h
    rename_i habove
    split at h
    · rename_i hfits
      obtain ⟨hlaid, hn⟩ := laidOut_of_checkRegisters h
      have hsum : (expected + r.size).toNat = expected.toNat + r.size.toNat := by
        rw [UInt32.toNat_add]
        exact Nat.mod_eq_of_lt hfits
      have hoffset : r.offset.toNat = expected.toNat := by
        rw [UInt32.lt_iff_toNat_lt] at hbelow habove
        omega
      rw [hsum] at hlaid hn
      exact ⟨⟨hoffset, hlaid⟩, by rw [hn, totalSize, Nat.add_assoc]⟩
    · cases h

/-! ## Operations -/

theorem lt_of_checkQubits {qubitCount : UInt32} : ∀ {qs seen : List UInt32},
    checkQubits qubitCount seen qs = .ok () → ∀ q ∈ qs, q < qubitCount
  | [], _, _ => nofun
  | q :: qs, seen, h => by
    unfold checkQubits at h
    split at h
    · cases h
    rename_i hq
    split at h
    · cases h
    · exact List.forall_mem_cons.mpr ⟨UInt32.not_le.mp hq, lt_of_checkQubits h⟩

theorem checkOperation_of_checkOperations {c : Circuit} :
    ∀ {os : List Operation} {position : Nat}, checkOperations c position os = .ok () →
      ∀ o ∈ os, checkOperation c o = .ok ()
  | [], _, _ => nofun
  | o :: os, position, h => by
    unfold checkOperations at h
    split at h
    · rename_i hcheck
      exact List.forall_mem_cons.mpr ⟨hcheck, checkOperation_of_checkOperations h⟩
    · cases h

/-- A measurement that passes the check writes a bit that there is. -/
theorem target_of_checkResult {c : Circuit} {o : Operation} (h : checkResult c o = .ok ()) :
    (o.kind = .measure ↔ o.result.isSome) ∧ ∀ t ∈ o.result,
      ∃ r, c.register? t.register = some r ∧ t.bit.toNat < r.size.toNat := by
  unfold checkResult at h
  split at h
  · rename_i hkind hresult
    rw [hresult]
    exact ⟨by simpa [OperationKind.isMeasurement] using hkind, nofun⟩
  · cases h
  · cases h
  · rename_i target hkind hresult
    split at h
    · cases h
    · rename_i r hr
      split at h
      · rename_i hbit
        rw [hresult]
        refine ⟨by simpa [OperationKind.isMeasurement] using hkind, fun t ht => ?_⟩
        obtain rfl := Option.some.inj ht
        exact ⟨r, hr, UInt32.lt_iff_toNat_lt.mp hbit⟩
      · cases h

theorem le_qubitsNeeded (count : UInt32) (qubits : List UInt32) :
    count ≤ qubitsNeeded count qubits := by
  induction qubits generalizing count with
  | nil => exact UInt32.le_refl _
  | cons q qs ih =>
    have hmax : count ≤ max count (q + 1) := by
      show count ≤ if count ≤ q + 1 then q + 1 else count
      split
      · assumption
      · exact UInt32.le_refl _
    exact UInt32.le_trans hmax (ih (max count (q + 1)))

/-- What is known of a circuit once its resources are. -/
structure Accounted (c : Circuit) (r : Resources) : Prop where
  laidOut : LaidOut 0 c.registers
  results : r.results.toNat = totalSize c.registers
  qubitCount : c.qubitCount ≤ r.qubits
  checked : ∀ o ∈ c.operations, checkOperation c o = .ok ()

theorem accounted_of_account {c : Circuit} {r : Resources} (h : account c = .ok r) :
    Accounted c r := by
  obtain ⟨results, hregisters, h⟩ := bind_eq_ok h
  obtain ⟨_, hoperations, h⟩ := bind_eq_ok h
  obtain rfl := Except.ok.inj h
  obtain ⟨hlaid, hresults⟩ := laidOut_of_checkRegisters hregisters
  refine ⟨hlaid, ?_, le_qubitsNeeded _ _, checkOperation_of_checkOperations hoperations⟩
  simpa using hresults

namespace Accounted

variable {c : Circuit} {r : Resources}

theorem checkResult (h : Accounted c r) : ∀ o ∈ c.operations, checkResult c o = .ok () := by
  intro o ho
  obtain ⟨_, -, hresult⟩ := bind_eq_ok (h.checked o ho)
  exact hresult

theorem lt_qubitCount (h : Accounted c r) :
    ∀ o ∈ c.operations, ∀ q ∈ o.qubits, q < c.qubitCount := by
  intro o ho
  obtain ⟨_, hqubits, -⟩ := bind_eq_ok (h.checked o ho)
  exact lt_of_checkQubits hqubits

/-- The last bit of a register still has a number, and the number fits. -/
theorem toNat_globalIndex (h : Accounted c r) {q : Register} (hq : q ∈ c.registers)
    {bit : UInt32} (hbit : bit.toNat < q.size.toNat) :
    (q.globalIndex bit).toNat = q.offset.toNat + bit.toNat := by
  have hbounds := h.laidOut.bounds hq
  have hlt := r.results.toNat_lt
  rw [h.results] at hlt
  rw [Register.globalIndex, UInt32.toNat_add]
  exact Nat.mod_eq_of_lt (by omega)

end Accounted

end Resources

end CircuitQir
