import CircuitQir.Proofs.Bitstream.Accumulator
import Mathlib.Algebra.BigOperators.Fin
import Mathlib.Algebra.BigOperators.Ring.Finset
/-!
# Variable-width numbers lose no bit

The pieces of a number may be spelled in many ways: with pieces of zeros at the end, with bits above
bit 63, or without an end. `VbrWidth.total` is the number that pieces stand for, however large, and
`VbrWidth.readFrom_pieces` says what a reader makes of them: their total, or an error where that
does not fit into a word or where a piece starts above it. So what is read is exactly what is there
(`lossless`), and a word that is written piece by piece is read back.
-/

namespace CircuitQir.Bitstream

/-- A number that was read is there bit by bit. -/
theorem Reader.number_eq_ok {width n : Nat} {c c' : Cursor}
    (h : Reader.number width c = .ok (n, c')) :
    n < 2 ^ width ∧ c.rest = Bits.ofNat width n ++ c'.rest := by
  unfold Reader.number at h
  split at h
  · rename_i front rest hsplit
    obtain ⟨hrest, rfl⟩ := Reader.splitExactly?_eq_some hsplit
    obtain ⟨rfl, rfl⟩ := Prod.mk.inj (Except.ok.inj h)
    rw [Bits.ofNat_toNat]
    exact ⟨Bits.toNat_lt front, hrest⟩
  · cases h

/-! ## Pieces -/

namespace VbrWidth

variable {w : VbrWidth} {pieces : List Nat}

/-- The pieces of one number: each but the last has its top bit set. -/
inductive Pieces (w : VbrWidth) : List Nat → Prop
  | last {piece : Nat} (hlast : piece < w.base) : Pieces w [piece]
  | more {piece : Nat} {pieces : List Nat} (hmore : w.base ≤ piece) (hlt : piece < 2 ^ w.bits)
      (hpieces : Pieces w pieces) : Pieces w (piece :: pieces)

/-- The number that pieces stand for: their lower bits, each piece in units of its place. -/
def total (w : VbrWidth) (pieces : List Nat) : Nat :=
  ∑ i : Fin pieces.length, pieces[i] % w.base * 2 ^ (i * (w.bits - 1))

/-- The bits of pieces. -/
def bitsOf (w : VbrWidth) (pieces : List Nat) : List Bool := pieces.flatMap (Bits.ofNat w.bits)

theorem total_cons (w : VbrWidth) (piece : Nat) (pieces : List Nat) :
    w.total (piece :: pieces) = piece % w.base + w.total pieces * 2 ^ (w.bits - 1) := by
  have hsum : w.total (piece :: pieces) = piece % w.base * 2 ^ (0 * (w.bits - 1)) +
      ∑ i : Fin pieces.length, pieces[i] % w.base * 2 ^ ((i + 1) * (w.bits - 1)) :=
    Fin.sum_univ_succ (n := pieces.length) fun i : Fin (pieces.length + 1) =>
      (piece :: pieces)[i] % w.base * 2 ^ (i * (w.bits - 1))
  rw [hsum, total, Finset.sum_mul, Nat.zero_mul, Nat.pow_zero, Nat.mul_one]
  refine congrArg _ (Finset.sum_congr rfl fun i _ => ?_)
  rw [Nat.add_mul, Nat.one_mul, Nat.pow_add, Nat.mul_assoc]

theorem total_last {piece : Nat} (h : piece < w.base) : w.total [piece] = piece := by
  rw [total_cons, total, Nat.mod_eq_of_lt h]
  simp

theorem two_pow_bits (w : VbrWidth) : 2 ^ w.bits = w.base * 2 := by
  have := w.two_le
  rw [base, ← Nat.pow_succ, Nat.succ_eq_add_one, Nat.sub_add_cancel (by omega)]

theorem Pieces.length_pos (h : w.Pieces pieces) : 0 < pieces.length := by
  cases h with
  | last | more => exact Nat.succ_pos _

/-! ## Reading pieces -/

/-- The part of a number from bit `shift` on, in units of that bit. -/
theorem total_cons_mul (w : VbrWidth) (piece : Nat) (pieces : List Nat) (shift : Nat) :
    w.total (piece :: pieces) * 2 ^ shift =
      piece % w.base * 2 ^ shift + w.total pieces * 2 ^ (shift + (w.bits - 1)) := by
  rw [total_cons, Nat.add_mul, Nat.mul_assoc, ← Nat.pow_add, Nat.add_comm (w.bits - 1)]

/-- Pieces from bit `shift` on are read if the last starts within a word and the number fits into
one. -/
theorem readFrom_pieces (h : w.Pieces pieces) (start shift position : Nat) (rest : List Bool) :
    w.readFrom start shift ⟨position, w.bitsOf pieces ++ rest⟩ =
      if shift + (pieces.length - 1) * (w.bits - 1) < 64 ∧ w.total pieces * 2 ^ shift < 2 ^ 64 then
        .ok (w.total pieces * 2 ^ shift, ⟨position + pieces.length * w.bits, rest⟩)
      else .error (.malformed start .integerOverflow) := by
  have hbits := w.two_pow_bits
  induction h generalizing shift position with
  | @last piece hlast =>
    have hnumber := Reader.number_ofNat (show piece < 2 ^ w.bits by omega) position rest
    rw [bitsOf, List.flatMap_singleton, readFrom, Reader.bind_apply_ok hnumber, total_last hlast,
      Nat.mod_eq_of_lt hlast]
    by_cases hover : 64 ≤ shift ∨ 2 ^ 64 ≤ piece * 2 ^ shift
    · rw [dif_pos hover, if_neg (by simp; omega)]
      rfl
    · rw [dif_neg hover, if_pos hlast, if_pos (by simp; omega)]
      rw [List.length_singleton, Nat.one_mul]
      rfl
  | @more piece pieces hmore hlt hpieces ih =>
    have hnumber := Reader.number_ofNat hlt position (w.bitsOf pieces ++ rest)
    have hpos := hpieces.length_pos
    have hplace : shift + ((piece :: pieces).length - 1) * (w.bits - 1) =
        shift + (w.bits - 1) + (pieces.length - 1) * (w.bits - 1) := by
      rw [List.length_cons, Nat.add_sub_cancel, ← Nat.succ_pred_eq_of_pos hpos, Nat.succ_mul]
      simp only [Nat.pred_eq_sub_one, Nat.succ_eq_add_one, Nat.add_sub_cancel]
      omega
    have hend : position + w.bits + pieces.length * w.bits =
        position + (piece :: pieces).length * w.bits := by
      rw [List.length_cons, Nat.succ_mul]
      omega
    rw [bitsOf, List.flatMap_cons, List.append_assoc, ← bitsOf, readFrom,
      Reader.bind_apply_ok hnumber, hplace, hend.symm, total_cons_mul]
    by_cases hover : 64 ≤ shift ∨ 2 ^ 64 ≤ piece % w.base * 2 ^ shift
    · rw [dif_pos hover, if_neg (by omega)]
      rfl
    rw [dif_neg hover, if_neg (Nat.not_lt.mpr hmore)]
    have hread := ih (shift + (w.bits - 1)) (position + w.bits)
    by_cases hfits : shift + (w.bits - 1) + (pieces.length - 1) * (w.bits - 1) < 64 ∧
        w.total pieces * 2 ^ (shift + (w.bits - 1)) < 2 ^ 64
    · rw [if_pos hfits] at hread
      have hlow : piece % w.base < w.base := Nat.mod_lt _ (Nat.zero_lt_of_lt w.two_le_base)
      have hsum :
          piece % w.base * 2 ^ shift + w.total pieces * 2 ^ (shift + (w.bits - 1)) < 2 ^ 64 :=
        shifted_lt rfl hlow hfits.2 (by omega)
      rw [Reader.bind_apply_ok hread, if_pos ⟨hfits.1, hsum⟩]
      rfl
    · rw [if_neg hfits] at hread
      rw [Reader.bind_apply_error hread, if_neg (by omega)]

/-- What a reader of a number takes in are pieces. -/
theorem exists_pieces_of_readFrom {start shift value : Nat} {c c' : Cursor}
    (h : w.readFrom start shift c = .ok (value, c')) :
    ∃ pieces rest, w.Pieces pieces ∧ c.rest = w.bitsOf pieces ++ rest := by
  induction hleft : 64 - shift using Nat.strongRecOn generalizing shift value c c' with
  | ind n ih =>
    have htwo := w.two_le
    rw [readFrom] at h
    obtain ⟨piece, c₁, hnumber, h⟩ := Reader.exists_of_bind h
    obtain ⟨hlt, hrest⟩ := Reader.number_eq_ok hnumber
    dsimp only at h
    by_cases hover : 64 ≤ shift ∨ 2 ^ 64 ≤ piece % w.base * 2 ^ shift
    · rw [dif_pos hover] at h
      cases h
    rw [dif_neg hover] at h
    by_cases hlast : piece < w.base
    · exact ⟨[piece], c₁.rest, .last hlast, by simpa [bitsOf] using hrest⟩
    · rw [if_neg hlast] at h
      obtain ⟨value', c₂, hread, -⟩ := Reader.exists_of_bind h
      obtain ⟨pieces, rest, hpieces, hbits⟩ := ih (64 - (shift + (w.bits - 1))) (by omega) hread rfl
      refine ⟨piece :: pieces, rest, .more (Nat.not_lt.mp hlast) hlt hpieces, ?_⟩
      rw [hrest, hbits, bitsOf, bitsOf, List.flatMap_cons, List.append_assoc]

/-- What becomes of the pieces of a number. -/
theorem read_pieces (hpieces : w.Pieces pieces) (position : Nat) (rest : List Bool) :
    w.read ⟨position, w.bitsOf pieces ++ rest⟩ =
      if (pieces.length - 1) * (w.bits - 1) < 64 ∧ w.total pieces < 2 ^ 64 then
        .ok (w.total pieces, ⟨position + pieces.length * w.bits, rest⟩)
      else .error (.malformed position .integerOverflow) := by
  have heq := readFrom_pieces hpieces position 0 position rest
  simp only [Nat.pow_zero, Nat.mul_one, Nat.zero_add] at heq
  exact heq

/-- A number is read exactly from pieces whose last starts within a word, and which stand for a
word; and it is what they stand for. -/
theorem read_eq_ok_iff {value : Nat} {c c' : Cursor} :
    w.read c = .ok (value, c') ↔ ∃ pieces, w.Pieces pieces ∧
      c.rest = w.bitsOf pieces ++ c'.rest ∧ c'.position = c.position + pieces.length * w.bits ∧
        (pieces.length - 1) * (w.bits - 1) < 64 ∧ w.total pieces < 2 ^ 64 ∧
          value = w.total pieces := by
  obtain ⟨position, bits⟩ := c
  obtain ⟨position', rest'⟩ := c'
  constructor
  · intro h
    have hread : w.readFrom position 0 ⟨position, bits⟩ = .ok (value, ⟨position', rest'⟩) := h
    obtain ⟨pieces, rest, hpieces, rfl⟩ := exists_pieces_of_readFrom hread
    rw [read_pieces hpieces] at h
    split at h
    · rename_i hfits
      simp only [Except.ok.injEq, Prod.mk.injEq, Cursor.mk.injEq] at h
      obtain ⟨rfl, rfl, rfl⟩ := h
      exact ⟨pieces, hpieces, rfl, rfl, hfits.1, hfits.2, rfl⟩
    · cases h
  · rintro ⟨pieces, hpieces, hrest, hposition, hstart, hlt, rfl⟩
    obtain rfl : bits = w.bitsOf pieces ++ rest' := hrest
    obtain rfl : position' = position + pieces.length * w.bits := hposition
    rw [read_pieces hpieces, if_pos ⟨hstart, hlt⟩]

end VbrWidth

/-! ## Writing pieces -/

namespace Accumulator

variable {a : Accumulator} {taken : List Bool}

/-- Where a bit is not above a word, the word becomes less when it is shifted that far. -/
theorem toNat_lt_of_shiftRight? {n : Nat} (hn : 0 < n) {threshold value rest : UInt64}
    (hthreshold : shiftLeft? 1 n = some threshold) (hle : threshold ≤ value)
    (hrest : shiftRight? value n = some rest) : rest.toNat < value.toNat := by
  have hrange : n < 64 := by
    by_contra hlarge
    rw [shiftLeft?, if_neg hlarge] at hthreshold
    cases hthreshold
  obtain ⟨threshold', hshift, hpow⟩ := exists_shiftLeft? 1 hrange
  obtain ⟨rest', hshift', hdiv⟩ := exists_shiftRight? value hrange
  obtain rfl := Option.some.inj (hshift.symm.trans hthreshold)
  obtain rfl := Option.some.inj (hshift'.symm.trans hrest)
  rw [UInt64.toNat_one, Nat.one_mul,
    Nat.mod_eq_of_lt (Nat.pow_lt_pow_right (by decide) hrange)] at hpow
  have hpos : 0 < value.toNat :=
    (hpow ▸ Nat.two_pow_pos n).trans_le (UInt64.le_iff_toNat_le.mp hle)
  rw [hdiv]
  exact Nat.div_lt_self hpos (Nat.one_lt_two_pow (Nat.ne_of_gt hn))

/-- Writes a word in pieces: as long as it is not below the bit that says that more follows, its
lower bits and that bit above them. -/
def emitVbr? (w : VbrWidth) (a : Accumulator) (value : UInt64) : Option Accumulator :=
  match _hthreshold : shiftLeft? 1 (w.bits - 1), _hrest : shiftRight? value (w.bits - 1) with
  | some threshold, some rest =>
    if _hle : threshold ≤ value then do
      let a ← a.emit? (value &&& (threshold - 1) ||| threshold) w.bits
      emitVbr? w a rest
    else a.emit? value w.bits
  | _, _ => none
termination_by value.toNat
decreasing_by
  have := w.two_le
  exact toNat_lt_of_shiftRight? (by omega) _hthreshold _hle _hrest

/-- The bit above the lower bits of a piece, and what of a word is left above these. -/
theorem exists_threshold (w : VbrWidth) (hw : w.bits ≤ 64) (value : UInt64) :
    ∃ threshold rest : UInt64, shiftLeft? 1 (w.bits - 1) = some threshold ∧
      shiftRight? value (w.bits - 1) = some rest ∧ threshold.toNat = w.base ∧
        rest.toNat = value.toNat / w.base := by
  have htwo := w.two_le
  have hrange : w.bits - 1 < 64 := by omega
  obtain ⟨threshold, hthreshold, hpow⟩ := exists_shiftLeft? 1 hrange
  obtain ⟨rest, hrest, hdiv⟩ := exists_shiftRight? value hrange
  rw [UInt64.toNat_one, Nat.one_mul,
    Nat.mod_eq_of_lt (Nat.pow_lt_pow_right (by decide) hrange)] at hpow
  exact ⟨threshold, rest, hthreshold, hrest, hpow, hdiv⟩

/-- A piece that is followed by another. -/
theorem toNat_piece (w : VbrWidth) {threshold : UInt64} (h : threshold.toNat = w.base)
    (value : UInt64) : (value &&& (threshold - 1) ||| threshold).toNat =
      value.toNat % w.base + w.base := by
  have hone : (1 : UInt64) ≤ threshold := by
    rw [UInt64.le_iff_toNat_le, h]
    exact Nat.le_of_succ_le w.two_le_base
  have hlow : (value &&& (threshold - 1)).toNat = value.toNat % w.base := by
    rw [UInt64.toNat_and, UInt64.toNat_sub_of_le _ _ hone, h, UInt64.toNat_one, VbrWidth.base,
      Nat.and_two_pow_sub_one_eq_mod]
  have hlt : (value &&& (threshold - 1)).toNat < 2 ^ (w.bits - 1) := by
    rw [hlow]
    exact Nat.mod_lt _ (Nat.two_pow_pos _)
  rw [toNat_or_of_lt hlt (k := 1) (by rw [h, Nat.mul_one, VbrWidth.base]), hlow, Nat.mul_one,
    VbrWidth.base]

/-- Words are written as the pieces of the numbers they are. -/
theorem exists_emitVbr? (w : VbrWidth) (hw : w.bits ≤ 32) {a : Accumulator} {taken : List Bool}
    (h : a.packer.Holds taken) (value : UInt64) : ∃ a', a.emitVbr? w value = some a' ∧
      a'.packer = (w.fields value.toNat).foldl Packer.write a.packer := by
  induction hvalue : value.toNat using Nat.strongRecOn generalizing a taken value with
  | ind n ih =>
    subst hvalue
    have hbits := w.two_pow_bits
    obtain ⟨threshold, rest, hthreshold, hrest, hpow, hdiv⟩ :=
      exists_threshold w (by omega) value
    rw [emitVbr?, VbrWidth.fields]
    split
    · rename_i threshold' rest' hthreshold' hrest'
      obtain rfl := Option.some.inj (hthreshold.symm.trans hthreshold')
      obtain rfl := Option.some.inj (hrest.symm.trans hrest')
      by_cases hle : threshold ≤ value
      · have hge : ¬ value.toNat < w.base := by
          rw [← hpow]
          exact Nat.not_lt.mpr (UInt64.le_iff_toNat_le.mp hle)
        have hpiece := toNat_piece w hpow value
        have hmod : value.toNat % w.base < w.base :=
          Nat.mod_lt _ (Nat.zero_lt_of_lt w.two_le_base)
        have hfits : (value &&& (threshold - 1) ||| threshold).toNat < 2 ^ w.bits := by omega
        obtain ⟨a₁, ha₁, hpacker⟩ := exists_emit? h hw hfits
        have hheld := h.emit hw hfits
        rw [← hpacker] at hheld
        have hless := toNat_lt_of_shiftRight? (by have := w.two_le; omega) hthreshold hle hrest
        obtain ⟨a₂, ha₂, hrun⟩ := ih _ hless hheld rest rfl
        rw [dif_pos hle, ha₁, if_neg hge]
        refine ⟨a₂, ha₂, ?_⟩
        rw [hrun, hpacker, hpiece, hdiv, List.foldl_cons]
        rfl
      · have hlt : value.toNat < w.base := by
          rw [← hpow]
          exact UInt64.lt_iff_toNat_lt.mp (UInt64.not_le.mp hle)
        rw [dif_neg hle, if_pos hlt]
        exact exists_emit? h hw (by omega)
    · rename_i hnone
      exact absurd hrest (hnone _ _ hthreshold)

end Accumulator

/-! ## No bit is lost -/

/-- What a reader reads, a program that refines it reads as well. -/
theorem Guarded.Refines.eq_some {bytes : List UInt8} {g : Guarded UInt64} {r : Reader Nat}
    (h : Refines bytes g r) {c c' : Cursor} (hc : c.On bytes) {x : UInt64}
    (hr : r c = .ok (x.toNat, c')) : g c = some (.ok (x, c')) := by
  obtain ⟨outcome, hg, hmap⟩ := h c hc
  rw [hr] at hmap
  cases outcome with
  | error e => cases hmap
  | ok p =>
    obtain ⟨hx, rfl⟩ := Prod.mk.inj (Except.ok.inj hmap)
    rw [hg, UInt64.toNat_inj.mp hx]

/-- What it is for numbers in pieces of some width to lose no bit. -/
structure VbrWidth.Lossless (w : VbrWidth) : Prop where
  /-- Behind whatever was packed before, a word is packed as its pieces, without a fault. -/
  written : w.bits ≤ 32 → ∀ (a : Accumulator) (taken : List Bool), a.packer.Holds taken →
    ∀ value : UInt64, ∃ a', a.emitVbr? w value = some a' ∧
      a'.packer = (w.fields value.toNat).foldl Packer.write a.packer ∧
      a'.packer.Holds (taken ++ Field.bits taken.length (w.fields value.toNat))
  /-- Whatever follows the pieces, the word is read back, and the reader stops behind them. -/
  readBack : ∀ (value : UInt64) (position : Nat) (rest : List Bool),
    w.read ⟨position, Field.bits position (w.fields value.toNat) ++ rest⟩ =
      .ok (value.toNat, ⟨Field.extent position (w.fields value.toNat), rest⟩)
  /-- So does a program that takes single bits out of bytes, wherever these have the pieces. -/
  wordReadBack : w.bits ≤ 64 → ∀ (bytes : List UInt8) (c : Cursor), c.On bytes →
    ∀ (value : UInt64) (rest : List Bool),
      c.rest = Field.bits c.position (w.fields value.toNat) ++ rest →
        w.read? bytes c =
          some (.ok (value, ⟨Field.extent c.position (w.fields value.toNat), rest⟩))
  /-- From bits of any kind, what is read is the sum that some pieces in front stand for, the reader
  stops behind these, and the sum is below `2 ^ 64`. -/
  exact_sum : ∀ (c c' : Cursor) (value : Nat), w.read c = .ok (value, c') ↔
    ∃ pieces, w.Pieces pieces ∧ c.rest = w.bitsOf pieces ++ c'.rest ∧
      c'.position = c.position + pieces.length * w.bits ∧
        (pieces.length - 1) * (w.bits - 1) < 64 ∧ w.total pieces < 2 ^ 64 ∧
          value = w.total pieces
  /-- Pieces that stand for `2 ^ 64` or more are refused. -/
  overflow : ∀ (pieces : List Nat) (position : Nat) (rest : List Bool), w.Pieces pieces →
    2 ^ 64 ≤ w.total pieces →
      w.read ⟨position, w.bitsOf pieces ++ rest⟩ = .error (.malformed position .integerOverflow)
  /-- On bytes of any kind, a program that computes with words reads and refuses the same. -/
  words : w.bits ≤ 64 → ∀ bytes, Guarded.Refines bytes (w.read? bytes) w.read

/-- Numbers in pieces of any width lose no bit. -/
theorem VbrWidth.lossless (w : VbrWidth) : w.Lossless where
  written hw a taken h value := by
    obtain ⟨a', ha', hpacker⟩ := Accumulator.exists_emitVbr? w hw h value
    refine ⟨a', ha', hpacker, ?_⟩
    rw [hpacker]
    exact h.foldl_write (w.valid_fields hw _)
  readBack value := w.reads_vbr value.toNat_lt
  wordReadBack hw bytes c hc value rest hrest := by
    refine (w.refines_read hw).eq_some hc ?_
    have hread := w.reads_vbr value.toNat_lt c.position rest
    rwa [← hrest] at hread
  exact_sum _ _ _ := read_eq_ok_iff
  overflow pieces position rest hpieces hlarge := by
    rw [read_pieces hpieces, if_neg (by omega)]
  words hw _ := w.refines_read hw

end CircuitQir.Bitstream
