import CircuitQir.Bitstream.Packer
/-!
# The bytes of a packer are the bits of its fields

`Packer.Holds` is the packer's invariant: whole words in the buffer, fewer than 32 bits waiting,
nothing above them, and the bits of both together are the bits taken so far. Each field keeps it
(`Holds.write`), so `ofBytes_pack` says which bits the finished bytes are: those of the fields
and zeros up to the next word boundary.
-/

namespace CircuitQir.Bits

/-! ## Cutting the bits of a number -/

theorem ofNat_add (m n v : Nat) : ofNat (m + n) v = ofNat m v ++ ofNat n (v / 2 ^ m) := by
  induction m generalizing v with
  | zero => simp [ofNat]
  | succ m ih =>
    rw [Nat.succ_add, ofNat, ofNat, ih, Nat.div_div_eq_div_mul, ← Nat.pow_succ']
    rfl

/-- The lowest bits do not see what stands above them. -/
theorem ofNat_mod (width v : Nat) : ofNat width (v % 2 ^ width) = ofNat width v := by
  have h := ofNat_toNat (ofNat width v)
  rwa [length_ofNat, toNat_ofNat] at h

@[simp] theorem ofNat_zero (width : Nat) : ofNat width 0 = List.replicate width false := by
  induction width with
  | zero => rfl
  | succ width ih => simp [ofNat, ih, List.replicate_succ]

/-- A number put above `m` bits of another one. -/
theorem ofNat_add_mul {m n a b : Nat} (ha : a < 2 ^ m) :
    ofNat (m + n) (a + b * 2 ^ m) = ofNat m a ++ ofNat n b := by
  have hlow : (a + b * 2 ^ m) % 2 ^ m = a := by
    rw [Nat.add_mul_mod_self_right, Nat.mod_eq_of_lt ha]
  have hhigh : (a + b * 2 ^ m) / 2 ^ m = b := by
    rw [Nat.add_mul_div_right _ _ (Nat.two_pow_pos m), Nat.div_eq_of_lt ha, Nat.zero_add]
  rw [ofNat_add, hhigh, ← ofNat_mod, hlow]

/-- Bytes are determined by their bits. -/
theorem ofBytes_eq_append {bytes front : List UInt8} {rest : List Bool}
    (h : ofBytes bytes = ofBytes front ++ rest) :
    ∃ back, bytes = front ++ back ∧ ofBytes back = rest := by
  induction front generalizing bytes with
  | nil => exact ⟨bytes, rfl, h⟩
  | cons f front ih =>
    cases bytes with
    | nil =>
      have hl := congrArg List.length h
      rw [List.length_append, length_ofBytes, length_ofBytes, List.length_cons,
        List.length_nil] at hl
      omega
    | cons b bytes =>
      have hb : ofBytes (b :: bytes) = ofNat 8 b.toNat ++ ofBytes bytes := rfl
      have hf : ofBytes (f :: front) = ofNat 8 f.toNat ++ ofBytes front := rfl
      rw [hb, hf, List.append_assoc] at h
      obtain ⟨hbyte, hbytes⟩ := List.append_inj h (by simp)
      have hnat : b.toNat = f.toNat := by
        have := congrArg toNat hbyte
        rw [toNat_ofNat, toNat_ofNat] at this
        have hb := b.toNat_lt
        have hf := f.toNat_lt
        omega
      obtain ⟨back, rfl, hback⟩ := ih hbytes
      exact ⟨back, by rw [UInt8.toNat_inj.mp hnat, List.cons_append], hback⟩

end CircuitQir.Bits

namespace CircuitQir.Bitstream

/-- What a writer may ask for: a number that fits its width, of one word at most. -/
def Field.Valid : Field → Prop
  | .number value width => width ≤ 32 ∧ value < 2 ^ width
  | .align => True

namespace Packer

/-- The four bytes of a number are its lowest word. -/
theorem ofBytes_wordBytes (word : Nat) : Bits.ofBytes (wordBytes word) = Bits.ofNat 32 word := by
  have hbyte : ∀ v : Nat, Bits.ofNat 8 (UInt8.ofNat v).toNat = Bits.ofNat 8 v := fun v => by
    rw [UInt8.toNat_ofNat']
    exact Bits.ofNat_mod 8 v
  have hcut : Bits.ofNat 32 word = Bits.ofNat (8 + (8 + (8 + 8))) word := rfl
  rw [hcut, Bits.ofNat_add, Bits.ofNat_add, Bits.ofNat_add, Nat.div_div_eq_div_mul,
    Nat.div_div_eq_div_mul, ← Nat.pow_add, ← Nat.pow_add]
  simp only [Bits.ofBytes, wordBytes, List.flatMap_cons, List.flatMap_nil, hbyte,
    List.append_nil, Nat.reduceAdd]

/-- The packer has taken exactly the given bits. -/
structure Holds (p : Packer) (taken : List Bool) : Prop where
  whole : p.bytes.size % 4 = 0
  count_lt : p.count < 32
  pending_lt : p.pending < 2 ^ p.count
  bits : Bits.ofBytes p.bytes.toList ++ Bits.ofNat p.count p.pending = taken

theorem holds_empty : Holds empty [] := ⟨rfl, by decide, by decide, rfl⟩

variable {p : Packer} {taken : List Bool}

/-- The bits that wait are those behind the last word boundary. -/
theorem Holds.count_eq (h : p.Holds taken) : p.count = taken.length % 32 := by
  have hw := h.whole
  have hc := h.count_lt
  rw [← h.bits, List.length_append, Bits.length_ofBytes, Bits.length_ofNat, Array.length_toList]
  omega

theorem Holds.emit {value width : Nat} (h : p.Holds taken) (hw : width ≤ 32)
    (hv : value < 2 ^ width) : (p.emit value width).Holds (taken ++ Bits.ofNat width value) := by
  have hbits : Bits.ofNat (p.count + width) (p.pending + value * 2 ^ p.count) =
      Bits.ofNat p.count p.pending ++ Bits.ofNat width value := Bits.ofNat_add_mul h.pending_lt
  have hlt : p.pending + value * 2 ^ p.count < 2 ^ (p.count + width) := by
    have hp := h.pending_lt
    have hm : (value + 1) * 2 ^ p.count ≤ 2 ^ width * 2 ^ p.count := Nat.mul_le_mul_right _ hv
    rw [Nat.add_mul, Nat.one_mul] at hm
    rw [Nat.pow_add, Nat.mul_comm (2 ^ p.count)]
    omega
  have hcount := h.count_lt
  unfold Packer.emit
  dsimp only
  split
  · rename_i hfull
    -- A word is full: it moves to the buffer, and what is above it goes on waiting.
    have hcut : Bits.ofNat (p.count + width) (p.pending + value * 2 ^ p.count) =
        Bits.ofNat 32 (p.pending + value * 2 ^ p.count) ++
          Bits.ofNat (p.count + width - 32) ((p.pending + value * 2 ^ p.count) / 2 ^ 32) := by
      rw [← Bits.ofNat_add, Nat.add_sub_cancel' hfull]
    refine ⟨?_, show p.count + width - 32 < 32 by omega, ?_, ?_⟩
    · have := h.whole
      simp [wordBytes]
      omega
    · show (p.pending + value * 2 ^ p.count) / 2 ^ 32 < 2 ^ (p.count + width - 32)
      rw [Nat.div_lt_iff_lt_mul (Nat.two_pow_pos 32), ← Nat.pow_add, Nat.sub_add_cancel hfull]
      exact hlt
    · show Bits.ofBytes (p.bytes ++ wordBytes _).toList ++ _ = _
      rw [← h.bits, List.append_assoc, ← hbits, hcut, Array.toList_appendList,
        Bits.ofBytes_append, ofBytes_wordBytes, List.append_assoc]
  · rename_i hroom
    refine ⟨h.whole, Nat.lt_of_not_le hroom, hlt, ?_⟩
    show Bits.ofBytes p.bytes.toList ++ Bits.ofNat (p.count + width) _ = _
    rw [hbits, ← List.append_assoc, h.bits]

theorem Holds.align (h : p.Holds taken) :
    p.align.Holds (taken ++ List.replicate (padding taken.length) false) := by
  have hc := h.count_eq
  have hlt := h.count_lt
  unfold Packer.align padding
  split
  · rename_i hz
    rw [show (32 - taken.length % 32) % 32 = 0 by omega]
    simpa using h
  · rename_i hz
    have he : (p.emit 0 (32 - p.count)).Holds (taken ++ Bits.ofNat (32 - p.count) 0) :=
      h.emit (by omega) (Nat.two_pow_pos _)
    have hgap : (32 - taken.length % 32) % 32 = 32 - p.count := by omega
    rw [hgap, ← Bits.ofNat_zero]
    exact he

theorem Holds.write {f : Field} (h : p.Holds taken) (hf : f.Valid) :
    (p.write f).Holds (taken ++ f.bitsAt taken.length) := by
  cases f with
  | number value width => exact h.emit hf.1 hf.2
  | align => exact h.align

/-- Fields taken one after the other add their bits. -/
theorem Holds.foldl_write {fs : List Field} (h : p.Holds taken) (hf : ∀ f ∈ fs, f.Valid) :
    (fs.foldl Packer.write p).Holds (taken ++ Field.bits taken.length fs) := by
  induction fs generalizing p taken with
  | nil => simpa [Field.bits] using h
  | cons f fs ih =>
    have hstep := ih (h.write (hf f (by simp))) fun g hg => hf g (by simp [hg])
    have hpos : (taken ++ f.bitsAt taken.length).length = f.after taken.length := by
      have := f.le_after taken.length
      rw [List.length_append, Field.length_bitsAt]
      omega
    rwa [hpos, List.append_assoc] at hstep

end Packer

/-- The bits of packed bytes: those of the fields, and zeros up to the next word boundary. -/
theorem ofBytes_pack {fs : List Field} (hf : ∀ f ∈ fs, f.Valid) :
    Bits.ofBytes (pack fs) =
      Field.bits 0 fs ++ List.replicate (padding (Field.extent 0 fs)) false := by
  have h : (fs.foldl Packer.write Packer.empty).align.Holds
      (Field.bits 0 fs ++ List.replicate (padding (Field.bits 0 fs).length) false) :=
    (Packer.holds_empty.foldl_write hf).align
  have hpos : (Field.bits 0 fs).length = Field.extent 0 fs := by
    rw [Field.extent_eq, Nat.zero_add]
  have hcount : (fs.foldl Packer.write Packer.empty).align.count = 0 := by
    rw [h.count_eq, List.length_append, List.length_replicate]
    unfold padding
    omega
  have hbits := h.bits
  rw [hcount, hpos] at hbits
  simpa [pack, Packer.finish, Bits.ofNat] using hbits

end CircuitQir.Bitstream
