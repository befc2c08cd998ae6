import CircuitQir.Bitstream.Record
/-!
# Reading back what was written

A reader `Reads` a value from some fields when, wherever they are written and whatever follows
them, it passes over exactly their bits and gives that value. Readers in sequence read fields in
sequence (`Reads.bind`), so the reader of a composite is matched with the fields of a composite
part by part.

The main statements are that every 64-bit number is read back from its pieces
(`reads_vbr`), and every record from its spelled-out form (`reads_record`).
-/

namespace CircuitQir.Bitstream

namespace Reader

/-- In front of the bits of the fields, and whatever follows them, the reader gives the value and
stops behind the fields. -/
def Reads {α : Type} (r : Reader α) (x : α) (fs : List Field) : Prop :=
  ∀ position rest,
    r ⟨position, Field.bits position fs ++ rest⟩ = .ok (x, ⟨Field.extent position fs, rest⟩)

theorem reads_pure {α : Type} (x : α) : Reads (pure x) x [] := fun _ _ => rfl

theorem Reads.bind {α β : Type} {r : Reader α} {f : α → Reader β} {x : α} {y : β}
    {fs gs : List Field} (hr : Reads r x fs) (hf : Reads (f x) y gs) :
    Reads (r >>= f) y (fs ++ gs) := by
  intro position rest
  show (r ⟨position, Field.bits position (fs ++ gs) ++ rest⟩ >>= fun (x, c) => f x c) = _
  rw [Field.bits_append, List.append_assoc, hr position (_ ++ rest), Field.extent_append]
  exact hf _ rest

/-- What comes last may read nothing. -/
theorem Reads.last {α β : Type} {r : Reader α} {f : α → Reader β} {x : α} {y : β}
    {fs : List Field} (hr : Reads r x fs) (hf : Reads (f x) y []) : Reads (r >>= f) y fs := by
  have := hr.bind hf
  rwa [List.append_nil] at this

theorem Reads.map {α β : Type} {r : Reader α} {x : α} {fs : List Field} (h : Reads r x fs)
    (f : α → β) : Reads (r >>= fun x => pure (f x)) (f x) fs :=
  h.last (reads_pure (f x))

theorem reads_number {n width : Nat} (h : n < 2 ^ width) :
    Reads (number width) n [.number n width] := by
  intro position rest
  have hl : (Bits.ofNat width n).length = width := Bits.length_ofNat width n
  have hs := splitExactly?_append (Bits.ofNat width n) rest
  rw [hl] at hs
  simp [number, Field.bits, Field.bitsAt, hs, Bits.toNat_ofNat, Nat.mod_eq_of_lt h, Field.extent,
    Field.after]

theorem reads_align : Reads align () [.align] := by
  intro position rest
  have hs := splitExactly?_append (List.replicate (padding position) false) rest
  rw [List.length_replicate] at hs
  have hn : number (padding position) ⟨position, List.replicate (padding position) false ++ rest⟩ =
      .ok (Bits.toNat (List.replicate (padding position) false),
        ⟨position + padding position, rest⟩) := by
    simp [number, hs]
  show (number (padding position)
    ⟨position, Field.bits position [.align] ++ rest⟩ >>= fun (_, c) => Except.ok ((), c)) = _
  simp only [Field.bits, Field.bitsAt, List.append_nil]
  rw [hn]
  rfl

/-- As many things are read as there are, each from the fields of what it comes from. -/
theorem reads_times_map {α β : Type} {r : Reader β} {f : α → β} {written : α → List Field}
    {xs : List α} (h : ∀ x ∈ xs, Reads r (f x) (written x)) :
    Reads (times r xs.length) (xs.map f) (xs.flatMap written) := by
  induction xs with
  | nil => exact reads_pure _
  | cons x xs ih =>
    have hx := h x (by simp)
    have hxs := ih fun y hy => h y (by simp [hy])
    exact hx.bind (f := fun x => times r xs.length >>= fun xs => pure (x :: xs))
      (hxs.map fun xs => f x :: xs)

theorem reads_times {α : Type} {r : Reader α} {written : α → List Field} {xs : List α}
    (h : ∀ x ∈ xs, Reads r x (written x)) :
    Reads (times r xs.length) xs (xs.flatMap written) := by
  have hmap := reads_times_map (f := id) h
  rwa [List.map_id] at hmap

end Reader

open Reader

/-- The pieces of a number are read back from any piece on. -/
theorem VbrWidth.reads_readFrom (w : VbrWidth) (start : Nat) {shift value : Nat}
    (hs : shift < 64) (hv : value * 2 ^ shift < 2 ^ 64) :
    Reads (w.readFrom start shift) (value * 2 ^ shift) (w.fields value) := by
  have hw := w.two_le
  have hb := w.two_le_base
  have hbase : 2 ^ w.bits = 2 * w.base := by
    rw [VbrWidth.base, ← Nat.pow_succ']
    congr 1
    omega
  induction value using Nat.strongRecOn generalizing shift with
  | ind value ih =>
    rw [VbrWidth.fields, VbrWidth.readFrom]
    split
    · rename_i hlt
      have hn : Reads (number w.bits) value [.number value w.bits] := reads_number (by omega)
      refine hn.last ?_
      rw [Nat.mod_eq_of_lt hlt, dif_neg (by omega), if_pos hlt]
      exact reads_pure _
    · rename_i hge
      have hmod : value % w.base < w.base := Nat.mod_lt _ (by omega)
      have hdiv : value / w.base < value := Nat.div_lt_self (by omega) (by omega)
      have hone : 1 ≤ value / w.base := (Nat.one_le_div_iff (by omega)).2 (by omega)
      have hsum := Nat.div_add_mod value w.base
      have hshift : 2 ^ (shift + (w.bits - 1)) = w.base * 2 ^ shift := by
        rw [VbrWidth.base, Nat.pow_add, Nat.mul_comm]
      have hparts : value * 2 ^ shift =
          value % w.base * 2 ^ shift + value / w.base * 2 ^ (shift + (w.bits - 1)) := by
        rw [hshift, ← Nat.mul_assoc, ← Nat.add_mul]
        congr 1
        rw [Nat.mul_comm (value / w.base)]
        omega
      have hsmall : value / w.base * 2 ^ (shift + (w.bits - 1)) < 2 ^ 64 := by omega
      have hs' : shift + (w.bits - 1) < 64 := by
        refine (Nat.pow_lt_pow_iff_right (by decide : 1 < 2)).1 (Nat.lt_of_le_of_lt ?_ hsmall)
        exact Nat.le_mul_of_pos_left _ hone
      have hn : Reads (number w.bits) (value % w.base + w.base)
          [.number (value % w.base + w.base) w.bits] := reads_number (by omega)
      have hrest := ih (value / w.base) hdiv hs' hsmall
      have hpiece : (value % w.base + w.base) % w.base = value % w.base := by
        rw [Nat.add_mod_right, Nat.mod_mod]
      refine hn.bind ?_
      rw [hpiece, dif_neg (by omega), if_neg (by omega), hparts]
      exact hrest.map fun n => value % w.base * 2 ^ shift + n

/-- Every 64-bit number is read back from its pieces. -/
theorem VbrWidth.reads_vbr (w : VbrWidth) {value : Nat} (h : value < 2 ^ 64) :
    Reads w.read value (w.fields value) := by
  intro position rest
  have hr := w.reads_readFrom position (by decide : 0 < 64) (by simpa using h : value * 2 ^ 0 < _)
  rw [Nat.pow_zero, Nat.mul_one] at hr
  exact hr position rest

/-- Every record of 64-bit numbers is read back from its spelled-out form. -/
theorem Record.reads_record {code : Nat} {ops : List Nat} (hc : code < 2 ^ 64)
    (hl : ops.length < 2 ^ 64) (ho : ∀ n ∈ ops, n < 2 ^ 64) :
    Reads Record.read ⟨code, ops, none⟩
      (VbrWidth.six.fields code ++ (VbrWidth.six.fields ops.length ++
        ops.flatMap VbrWidth.six.fields)) := by
  have hops : Reads (times VbrWidth.six.read ops.length) ops (ops.flatMap VbrWidth.six.fields) :=
    reads_times fun n hn => VbrWidth.six.reads_vbr (ho n hn)
  unfold Record.read
  exact (VbrWidth.six.reads_vbr hc).bind
    ((VbrWidth.six.reads_vbr hl).bind (hops.map fun ops => Record.mk code ops none))

end CircuitQir.Bitstream
