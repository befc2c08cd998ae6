import CircuitQir.Bitstream.Reading
import CircuitQir.Proofs.Bitstream.Contents
/-!
# Numbers that are too large to read back

A number of more than 64 bits can be written piece by piece but not read: the piece that reaches
beyond bit 63 is malformed (`refuses_read`). So the reader of a record either gives back what was
written (`Record.reads_record`) or fails (`Record.refuses_read`), and never reads anything else.
-/

namespace CircuitQir.Bitstream

namespace Reader

/-- In front of the bits of the fields the reader fails, whatever follows them. -/
def Refuses {α : Type} (r : Reader α) (fs : List Field) : Prop :=
  ∀ position rest, ∃ e, r ⟨position, Field.bits position fs ++ rest⟩ = .error e

theorem refuses_malformed {α : Type} (bit : Nat) (flaw : Flaw) (fs : List Field) :
    Refuses (malformed bit flaw : Reader α) fs :=
  fun _ _ => ⟨_, rfl⟩

theorem bind_apply_ok {α β : Type} {r : Reader α} {f : α → Reader β} {x : α} {c c' : Cursor}
    (h : r c = .ok (x, c')) : (r >>= f) c = f x c' := by
  show (r c >>= fun (x, c) => f x c) = _
  rw [h]
  rfl

theorem bind_apply_error {α β : Type} {r : Reader α} {f : α → Reader β} {e : Error} {c : Cursor}
    (h : r c = .error e) : (r >>= f) c = .error e := by
  show (r c >>= fun (x, c) => f x c) = _
  rw [h]
  rfl

/-- Behind what it has read, a reader sees the fields that were written next. -/
theorem Reads.bind_apply {α β : Type} {r : Reader α} {f : α → Reader β} {x : α}
    {fs : List Field} (h : Reads r x fs) (gs : List Field) (position : Nat) (rest : List Bool) :
    (r >>= f) ⟨position, Field.bits position (fs ++ gs) ++ rest⟩ =
      f x ⟨Field.extent position fs, Field.bits (Field.extent position fs) gs ++ rest⟩ := by
  rw [Field.bits_append, List.append_assoc]
  exact bind_apply_ok (h position _)

theorem Refuses.bind {α β : Type} {r : Reader α} {fs : List Field} (h : Refuses r fs)
    (f : α → Reader β) (gs : List Field) : Refuses (r >>= f) (fs ++ gs) := by
  intro position rest
  obtain ⟨e, he⟩ := h position (Field.bits (Field.extent position fs) gs ++ rest)
  refine ⟨e, ?_⟩
  rw [Field.bits_append, List.append_assoc]
  exact bind_apply_error he

theorem Reads.bind_refuses {α β : Type} {r : Reader α} {f : α → Reader β} {x : α}
    {fs gs : List Field} (hr : Reads r x fs) (hf : Refuses (f x) gs) :
    Refuses (r >>= f) (fs ++ gs) := by
  intro position rest
  rw [hr.bind_apply]
  exact hf _ rest

theorem Refuses.last {α β : Type} {r : Reader α} {fs : List Field} (h : Refuses r fs)
    (f : α → Reader β) : Refuses (r >>= f) fs := by
  have hlast := h.bind f []
  rwa [List.append_nil] at hlast

/-- One part that cannot be read spoils a sequence whose other parts can. -/
theorem refuses_times {α : Type} {r : Reader α} {written : α → List Field} {good : α → Prop}
    (hgood : ∀ x, good x → Reads r x (written x)) (hbad : ∀ x, ¬ good x → Refuses r (written x)) :
    ∀ xs : List α, ¬ (∀ x ∈ xs, good x) → Refuses (times r xs.length) (xs.flatMap written)
  | [], h => absurd (fun _ hx => by cases hx) h
  | x :: xs, h => by
    by_cases hx : good x
    · have hxs : ¬ ∀ y ∈ xs, good y := fun hall => h fun y hy => by
        rcases List.mem_cons.mp hy with rfl | hy
        · exact hx
        · exact hall y hy
      refine (hgood x hx).bind_refuses ?_
      exact (refuses_times hgood hbad xs hxs).last _
    · exact (hbad x hx).bind _ (xs.flatMap written)

end Reader

open Reader

namespace VbrWidth

/-- A number that ends below bit 64 where it starts below it, and whose low part does too, is in
all below `2 ^ 64`. -/
theorem shifted_lt {base low high shift bits : Nat} (hbase : base = 2 ^ bits) (hlow : low < base)
    (hhigh : high * 2 ^ (shift + bits) < 2 ^ 64) (hlow' : low * 2 ^ shift < 2 ^ 64) :
    low * 2 ^ shift + high * 2 ^ (shift + bits) < 2 ^ 64 := by
  rcases Nat.eq_zero_or_pos high with rfl | hpos
  · simpa using hlow'
  · -- The low part stays below one unit of the high part, and `2 ^ 64` is a multiple of it.
    have hle : 2 ^ (shift + bits) ≤ high * 2 ^ (shift + bits) := Nat.le_mul_of_pos_left _ hpos
    have hexp : shift + bits < 64 :=
      (Nat.pow_lt_pow_iff_right (by decide : 1 < 2)).1 (Nat.lt_of_le_of_lt hle hhigh)
    have hsplit : 2 ^ 64 = 2 ^ (64 - (shift + bits)) * 2 ^ (shift + bits) := by
      rw [← Nat.pow_add, Nat.sub_add_cancel (Nat.le_of_lt hexp)]
    have hunit : low * 2 ^ shift < 2 ^ (shift + bits) := by
      rw [Nat.pow_add, Nat.mul_comm (2 ^ shift), ← hbase]
      exact Nat.mul_lt_mul_of_pos_right hlow (Nat.two_pow_pos shift)
    have hroom : high + 1 ≤ 2 ^ (64 - (shift + bits)) := by
      rw [hsplit] at hhigh
      exact Nat.lt_of_mul_lt_mul_right hhigh
    have hmul := Nat.mul_le_mul_right (2 ^ (shift + bits)) hroom
    rw [Nat.add_mul, Nat.one_mul, ← hsplit] at hmul
    omega

theorem refuses_readFrom (w : VbrWidth) (start : Nat) {shift value : Nat}
    (hv : 2 ^ 64 ≤ value * 2 ^ shift) : Refuses (w.readFrom start shift) (w.fields value) := by
  have hw := w.two_le
  have hb := w.two_le_base
  have hbase : 2 ^ w.bits = 2 * w.base := by
    rw [VbrWidth.base, ← Nat.pow_succ']
    congr 1
    omega
  induction value using Nat.strongRecOn generalizing shift with
  | ind value ih =>
    rw [VbrWidth.fields, VbrWidth.readFrom]
    split
    · rename_i hlt
      have hn : Reads (number w.bits) value [.number value w.bits] := reads_number (by omega)
      show Refuses _ ([.number value w.bits] ++ [])
      refine hn.bind_refuses ?_
      rw [Nat.mod_eq_of_lt hlt, dif_pos (Or.inr hv)]
      exact refuses_malformed _ _ _
    · rename_i hge
      have hmod : value % w.base < w.base := Nat.mod_lt _ (by omega)
      have hn : Reads (number w.bits) (value % w.base + w.base)
          [.number (value % w.base + w.base) w.bits] := reads_number (by omega)
      have hpiece : (value % w.base + w.base) % w.base = value % w.base := by
        rw [Nat.add_mod_right, Nat.mod_mod]
      show Refuses _ ([_] ++ w.fields (value / w.base))
      refine hn.bind_refuses ?_
      rw [hpiece]
      by_cases hover : 64 ≤ shift ∨ 2 ^ 64 ≤ value % w.base * 2 ^ shift
      · rw [dif_pos hover]
        exact refuses_malformed _ _ _
      · rw [dif_neg hover, if_neg (by omega)]
        have hparts : value * 2 ^ shift =
            value % w.base * 2 ^ shift + value / w.base * 2 ^ (shift + (w.bits - 1)) := by
          have hshift : 2 ^ (shift + (w.bits - 1)) = w.base * 2 ^ shift := by
            rw [VbrWidth.base, Nat.pow_add, Nat.mul_comm]
          rw [hshift, ← Nat.mul_assoc, ← Nat.add_mul, Nat.mul_comm (value / w.base),
            Nat.mod_add_div]
        have hrest : 2 ^ 64 ≤ value / w.base * 2 ^ (shift + (w.bits - 1)) := by
          refine Nat.le_of_not_lt ?_
          intro hlt
          have := shifted_lt rfl hmod hlt (by omega)
          omega
        have hdiv : value / w.base < value := Nat.div_lt_self (by omega) (by omega)
        exact (ih (value / w.base) hdiv hrest).last _

/-- A number of more than 64 bits is not read back. -/
theorem refuses_read (w : VbrWidth) {value : Nat} (h : ¬ value < 2 ^ 64) :
    Refuses w.read (w.fields value) := by
  intro position rest
  have hlarge : 2 ^ 64 ≤ value * 2 ^ 0 := by omega
  exact w.refuses_readFrom position hlarge position rest

end VbrWidth

namespace Record

/-- A record with a number of more than 64 bits is not read back. -/
theorem refuses_read {code : Nat} {ops : List Nat}
    (h : ¬ (code < 2 ^ 64 ∧ ops.length < 2 ^ 64 ∧ ∀ n ∈ ops, n < 2 ^ 64)) :
    Refuses Record.read
      (VbrWidth.six.fields code ++ (VbrWidth.six.fields ops.length ++
        ops.flatMap VbrWidth.six.fields)) := by
  unfold Record.read
  by_cases hc : code < 2 ^ 64
  · refine (VbrWidth.six.reads_vbr hc).bind_refuses ?_
    by_cases hl : ops.length < 2 ^ 64
    · refine (VbrWidth.six.reads_vbr hl).bind_refuses ?_
      have hops : ¬ ∀ n ∈ ops, n < 2 ^ 64 := fun ho => h ⟨hc, hl, ho⟩
      exact (refuses_times (fun n hn => VbrWidth.six.reads_vbr hn)
        (fun n hn => VbrWidth.six.refuses_read hn) ops hops).last _
    · exact (VbrWidth.six.refuses_read hl).bind _ _
  · exact (VbrWidth.six.refuses_read hc).bind _ _

end Record

end CircuitQir.Bitstream
