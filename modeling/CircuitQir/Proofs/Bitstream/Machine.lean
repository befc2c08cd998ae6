import CircuitQir.Bitstream.Record
import CircuitQir.Proofs.Bitstream.Truncation
import Mathlib.Data.Nat.Bitwise
/-!
# Reading with operations that can fault

A program reads a bitstream with operations that are not defined everywhere: it takes bytes out of
a buffer by their index, shifts 64-bit words by less than 64 and looks characters up in a table. A
`Guarded` reader says what such a program does and gives nothing where it would fault. The readers
of numbers are stated here in this form, in the words and the order a program computes in. On an
input of any kind, from any place on it, none of them faults, and each reads what the reader of the
library reads (`Guarded.Refines`).

The widths are what this rests on: a program can read at most 64 bits into a word. The widths of the
container itself are small; those that an abbreviation declares are checked when it is read
(`Scalar.InRange`).
-/

namespace CircuitQir.Bits

theorem toNat_append_singleton (bs : List Bool) (b : Bool) :
    toNat (bs ++ [b]) = toNat bs + 2 ^ bs.length * b.toNat := by
  induction bs with
  | nil => simp [toNat]
  | cons c bs ih =>
    rw [List.cons_append, toNat, ih, toNat, List.length_cons, Nat.pow_succ', Nat.mul_assoc]
    omega

theorem getElem?_ofNat (n : Nat) : ∀ {width k : Nat}, k < width →
    (ofNat width n)[k]? = some (n.testBit k)
  | width + 1, 0, _ => by rw [ofNat, List.getElem?_cons_zero, Nat.testBit_zero]; rfl
  | width + 1, k + 1, h => by
    rw [ofNat, List.getElem?_cons_succ, getElem?_ofNat (n / 2) (Nat.lt_of_succ_lt_succ h),
      Nat.testBit_succ]

theorem getElem?_ofBytes : ∀ (bytes : List UInt8) (k : Nat),
    (ofBytes bytes)[k]? = bytes[k / 8]?.map fun b => b.toNat.testBit (k % 8)
  | [], k => by simp
  | b :: bytes, k => by
    have hcons : ofBytes (b :: bytes) = ofNat 8 b.toNat ++ ofBytes bytes := rfl
    rw [hcons]
    by_cases hk : k < 8
    · rw [List.getElem?_append_left (by rwa [length_ofNat]), getElem?_ofNat _ hk,
        Nat.div_eq_of_lt hk, Nat.mod_eq_of_lt hk]
      rfl
    · obtain ⟨j, rfl⟩ : ∃ j, k = j + 8 := ⟨k - 8, by omega⟩
      rw [List.getElem?_append_right (by rw [length_ofNat]; omega), length_ofNat,
        Nat.add_sub_cancel, getElem?_ofBytes bytes j, Nat.add_div_right j (by decide),
        Nat.add_mod_right]
      rfl

end CircuitQir.Bits

namespace CircuitQir.Bitstream

/-- A cursor is on an input: it has not gone past its end, and what lies ahead of it is what the
input has from there on. -/
structure Cursor.On (bytes : List UInt8) (c : Cursor) : Prop where
  position_le : c.position ≤ 8 * bytes.length
  rest_eq : c.rest = (Bits.ofBytes bytes).drop c.position

variable {bytes : List UInt8} {c c' : Cursor}

theorem Cursor.On.length_rest (h : c.On bytes) : c.rest.length = 8 * bytes.length - c.position := by
  rw [h.rest_eq, List.length_drop, Bits.length_ofBytes]

/-! ## Operations on words -/

/-- A shift of a 64-bit word to the left, which has to be by less than 64. -/
def shiftLeft? (x : UInt64) (n : Nat) : Option UInt64 :=
  if n < 64 then some (x <<< UInt64.ofNat n) else none

/-- A shift of a 64-bit word to the right, which has to be by less than 64. -/
def shiftRight? (x : UInt64) (n : Nat) : Option UInt64 :=
  if n < 64 then some (x >>> UInt64.ofNat n) else none

/-- A difference of words, which has to be one. -/
def subtract? (x y : UInt64) : Option UInt64 :=
  if y ≤ x then some (x - y) else none

/-- The bit with the given place in some bytes, taken from the byte it is in. -/
def bit? (bytes : List UInt8) (place : Nat) : Option Bool :=
  bytes[place / 8]?.map fun b => (b >>> UInt8.ofNat (place % 8)) &&& 1 == 1

/-- The word that the `width` bits from the given place on make up, the lowest first. -/
def word? (bytes : List UInt8) (place : Nat) : (width : Nat) → Option UInt64
  | 0 => some 0
  | i + 1 => do
    let value ← word? bytes place i
    if ← bit? bytes (place + i) then return value ||| (← shiftLeft? 1 i) else return value

theorem exists_shiftLeft? (x : UInt64) {n : Nat} (hn : n < 64) :
    ∃ y, shiftLeft? x n = some y ∧ y.toNat = x.toNat * 2 ^ n % 2 ^ 64 := by
  refine ⟨_, if_pos hn, ?_⟩
  rw [UInt64.toNat_shiftLeft, UInt64.toNat_ofNat', Nat.mod_eq_of_lt (show n < 2 ^ 64 by omega),
    Nat.mod_eq_of_lt hn, Nat.shiftLeft_eq]

theorem exists_shiftRight? (x : UInt64) {n : Nat} (hn : n < 64) :
    ∃ y, shiftRight? x n = some y ∧ y.toNat = x.toNat / 2 ^ n := by
  refine ⟨_, if_pos hn, ?_⟩
  rw [UInt64.toNat_shiftRight, UInt64.toNat_ofNat', Nat.mod_eq_of_lt (show n < 2 ^ 64 by omega),
    Nat.mod_eq_of_lt hn, Nat.shiftRight_eq_div_pow]

theorem exists_subtract? {x y : UInt64} (h : y ≤ x) :
    ∃ z, subtract? x y = some z ∧ z.toNat = x.toNat - y.toNat :=
  ⟨_, if_pos h, UInt64.toNat_sub_of_le x y h⟩

/-- Words that share no bit are put together by adding them. -/
theorem toNat_or_of_lt {x y : UInt64} {n k : Nat} (hx : x.toNat < 2 ^ n)
    (hy : y.toNat = 2 ^ n * k) : (x ||| y).toNat = x.toNat + 2 ^ n * k := by
  rw [UInt64.toNat_or, hy, Nat.or_comm, ← Nat.two_pow_add_eq_or_of_lt hx, Nat.add_comm]

theorem bit?_eq (bytes : List UInt8) (place : Nat) :
    bit? bytes place = (Bits.ofBytes bytes)[place]? := by
  rw [Bits.getElem?_ofBytes, bit?]
  congr 1
  funext b
  have hplace : (UInt8.ofNat (place % 8)).toNat = place % 8 := by
    rw [UInt8.toNat_ofNat']
    omega
  have hbit : ((b >>> UInt8.ofNat (place % 8)) &&& 1).toNat = b.toNat >>> (place % 8) % 2 := by
    rw [UInt8.toNat_and, UInt8.toNat_shiftRight, hplace, Nat.mod_mod]
    exact Nat.and_one_is_mod _
  rw [Nat.testBit_eq_decide_div_mod_eq, ← Nat.shiftRight_eq_div_pow, Bool.eq_iff_iff,
    decide_eq_true_iff, beq_iff_eq, ← hbit, ← UInt8.toNat_inj]
  rfl

/-- Up to 64 bits can be read into a word wherever they are there. -/
theorem exists_word? {place : Nat} : ∀ {width : Nat}, width ≤ 64 →
    place + width ≤ 8 * bytes.length → ∃ value, word? bytes place width = some value ∧
      value.toNat = Bits.toNat (((Bits.ofBytes bytes).drop place).take width)
  | 0, _, _ => ⟨0, rfl, rfl⟩
  | i + 1, hwidth, hplace => by
    have hi : place + i ≤ 8 * bytes.length := by omega
    obtain ⟨value, hvalue, hnat⟩ := exists_word? (Nat.le_of_succ_le hwidth) hi
    have hlt : place + i < (Bits.ofBytes bytes).length := by
      rw [Bits.length_ofBytes]
      omega
    have hlength : (((Bits.ofBytes bytes).drop place).take i).length = i := by
      rw [List.length_take, List.length_drop]
      omega
    have htake : ((Bits.ofBytes bytes).drop place).take (i + 1) =
        ((Bits.ofBytes bytes).drop place).take i ++ [(Bits.ofBytes bytes)[place + i]] := by
      rw [List.take_add_one, List.getElem?_drop, List.getElem?_eq_getElem hlt, Option.toList_some]
    have hsmall : value.toNat < 2 ^ i := by
      have := Bits.toNat_lt (((Bits.ofBytes bytes).drop place).take i)
      rwa [hlength, ← hnat] at this
    rw [htake, Bits.toNat_append_singleton, hlength, ← hnat, word?, hvalue, bit?_eq,
      List.getElem?_eq_getElem hlt]
    cases (Bits.ofBytes bytes)[place + i] with
    | false => exact ⟨value, rfl, by simp⟩
    | true =>
      obtain ⟨one, hone, hone'⟩ := exists_shiftLeft? 1 (show i < 64 by omega)
      have hpow : 2 ^ i < 2 ^ 64 := Nat.pow_lt_pow_right (by decide) (by omega)
      refine ⟨value ||| one, by simp [hone], toNat_or_of_lt hsmall ?_⟩
      rw [hone', UInt64.toNat_one, Nat.one_mul, Nat.mod_eq_of_lt hpow, Bool.toNat_true, Nat.mul_one]

/-! ## Reading a number -/

/-- From a place on an input, a number that is not all there is refused where it begins, and one
that is there is read up to its last bit. -/
theorem Cursor.On.number (hc : c.On bytes) (width : Nat) :
    8 * bytes.length < c.position + width ∧
        Reader.number width c = .error (.endOfInput c.position) ∨
      c.position + width ≤ 8 * bytes.length ∧
        Reader.number width c =
          .ok (Bits.toNat (c.rest.take width), ⟨c.position + width, c.rest.drop width⟩) := by
  have hlength := hc.length_rest
  have hle := hc.position_le
  by_cases hroom : c.position + width ≤ 8 * bytes.length
  · refine .inr ⟨hroom, ?_⟩
    have hsplit := Reader.splitExactly?_append (c.rest.take width) (c.rest.drop width)
    rw [List.take_append_drop, List.length_take, Nat.min_eq_left (by omega)] at hsplit
    rw [Reader.number, hsplit]
  · refine .inl ⟨by omega, ?_⟩
    rw [Reader.number]
    split
    · rename_i front rest hsplit
      obtain ⟨hrest, hfront⟩ := Reader.splitExactly?_eq_some hsplit
      have := congrArg List.length hrest
      rw [List.length_append] at this
      omega
    · rfl

/-- A cursor that is moved ahead on an input, not past its end. -/
theorem Cursor.On.drop (hc : c.On bytes) {width : Nat}
    (hroom : c.position + width ≤ 8 * bytes.length) :
    Cursor.On bytes ⟨c.position + width, c.rest.drop width⟩ :=
  ⟨hroom, by rw [hc.rest_eq, List.drop_drop]⟩

/-! ## Readers that can fault -/

/-- A reader that may come upon an operation outside of its range, and then gives nothing. -/
abbrev Guarded (α : Type) := StateT Cursor (ExceptT Error Option) α

namespace Guarded

/-- On an input the guarded reader never faults, and reads or refuses what the reader does. -/
def Refines (bytes : List UInt8) (g : Guarded UInt64) (r : Reader Nat) : Prop :=
  ∀ c, c.On bytes → ∃ outcome : Except Error (UInt64 × Cursor), g c = some outcome ∧
    r c = outcome.map fun p => (p.1.toNat, p.2)

variable {α β : Type}

theorem bind_apply_ok {g : Guarded α} {f : α → Guarded β} {x : α} {c c' : Cursor}
    (h : g c = some (.ok (x, c'))) : (g >>= f) c = f x c' := by
  show (g c).bind _ = _
  rw [h]
  rfl

theorem bind_apply_error {g : Guarded α} {f : α → Guarded β} {e : Error} {c : Cursor}
    (h : g c = some (.error e)) : (g >>= f) c = some (.error e) := by
  show (g c).bind _ = _
  rw [h]
  rfl

/-- An operation within its range does not fault. -/
theorem lift_bind {operation : Option α} {x : α} (h : operation = some x) (f : α → Guarded β) :
    (liftM operation >>= f) = f x := by
  rw [h]
  rfl

/-- Reads a number of the given width into a word. -/
def number (bytes : List UInt8) (width : Nat) : Guarded UInt64 := do
  let c ← get
  if 64 < width ∨ 8 * bytes.length - c.position < width then throw (.endOfInput c.position)
  else
    let value ← word? bytes c.position width
    set (Cursor.mk (c.position + width) (c.rest.drop width))
    return value

/-- Both readers refuse a number that is not all there, and read one that is. -/
theorem number_cases {width : Nat} (hwidth : width ≤ 64) (hc : c.On bytes) :
    (∃ e, number bytes width c = some (.error e) ∧ Reader.number width c = .error e) ∨
      ∃ (value : UInt64) (c' : Cursor), number bytes width c = some (.ok (value, c')) ∧
        Reader.number width c = .ok (value.toNat, c') ∧ value.toNat < 2 ^ width ∧
          c'.On bytes := by
  have hle := hc.position_le
  have hguarded : number bytes width c =
      (if 64 < width ∨ 8 * bytes.length - c.position < width then
        throw (.endOfInput c.position)
      else (do
        let value ← word? bytes c.position width
        set (Cursor.mk (c.position + width) (c.rest.drop width))
        return value) : Guarded UInt64) c := rfl
  rw [hguarded]
  rcases hc.number width with ⟨hroom, hnumber⟩ | ⟨hroom, hnumber⟩
  · rw [if_pos (.inr (by omega)), hnumber]
    exact .inl ⟨_, rfl, rfl⟩
  · obtain ⟨value, hvalue, hnat⟩ := exists_word? hwidth hroom
    rw [← hc.rest_eq] at hnat
    have hlt := Bits.toNat_lt (c.rest.take width)
    rw [if_neg (by omega), hnumber, hvalue, ← hnat]
    refine .inr ⟨value, _, rfl, rfl, ?_, hc.drop hroom⟩
    rw [hnat]
    exact Nat.lt_of_lt_of_le hlt (Nat.pow_le_pow_right (by decide) (List.length_take_le ..))

theorem refines_number {width : Nat} (hwidth : width ≤ 64) :
    Refines bytes (number bytes width) (Reader.number width) := by
  intro c hc
  rcases number_cases hwidth hc with ⟨e, hg, hr⟩ | ⟨value, c', hg, hr, -, -⟩
  · exact ⟨.error e, hg, hr⟩
  · exact ⟨.ok (value, c'), hg, hr⟩

end Guarded

open Guarded

/-! ## Variable-width numbers -/

namespace VbrWidth

/-- What does not fit into a word of a piece at bit `shift`. At bit 0 there is no such part, and the
shift that would give it is out of range. -/
def spilled? (payload : UInt64) (shift : Nat) : Option UInt64 :=
  if shift = 0 then some 0 else shiftRight? payload (64 - shift)

/-- Reads the pieces of a variable-width number from the one at bit `shift` on and puts them above
the bits of `value`. The number began at bit `start`. -/
def readFrom? (bytes : List UInt8) (w : VbrWidth) (start shift : Nat) (value : UInt64) :
    Guarded UInt64 := do
  let piece ← Guarded.number bytes w.bits
  let continuation ← shiftLeft? 1 (w.bits - 1)
  let payload := piece &&& (continuation - 1)
  if _h : 64 ≤ shift then throw (.malformed start .integerOverflow)
  else
    let spilled ← spilled? payload shift
    if spilled ≠ 0 then throw (.malformed start .integerOverflow)
    else
      let value := value ||| (← shiftLeft? payload shift)
      if piece &&& continuation = 0 then return value
      else readFrom? bytes w start (shift + (w.bits - 1)) value
termination_by 64 - shift
decreasing_by
  have := w.two_le
  omega

/-- The bit that says whether a piece is followed by another stands above its part of the number. -/
theorem exists_continuation (w : VbrWidth) (hw : w.bits ≤ 64) {piece : UInt64}
    (hpiece : piece.toNat < 2 ^ w.bits) : ∃ continuation, shiftLeft? 1 (w.bits - 1) =
      some continuation ∧ (piece &&& (continuation - 1)).toNat = piece.toNat % w.base ∧
        (piece &&& continuation = 0 ↔ piece.toNat < w.base) := by
  have htwo := w.two_le
  have hbase : w.base < 2 ^ 64 := Nat.pow_lt_pow_right (by decide) (by omega)
  have htop : 2 ^ w.bits = w.base * 2 := by
    rw [VbrWidth.base, ← Nat.pow_succ, Nat.succ_eq_add_one, Nat.sub_add_cancel (by omega)]
  have hone : 1 ≤ w.base := Nat.le_of_succ_le w.two_le_base
  obtain ⟨continuation, hshift, hnat⟩ := exists_shiftLeft? 1 (show w.bits - 1 < 64 by omega)
  rw [UInt64.toNat_one, Nat.one_mul] at hnat
  replace hnat : continuation.toNat = w.base := hnat.trans (Nat.mod_eq_of_lt hbase)
  refine ⟨continuation, hshift, ?_, ?_⟩
  · have hmask : (continuation - 1).toNat = 2 ^ (w.bits - 1) - 1 := by
      rw [UInt64.toNat_sub_of_le _ _ (UInt64.le_iff_toNat_le.mpr (by rw [hnat]; exact hone)), hnat]
      rfl
    rw [UInt64.toNat_and, hmask, Nat.and_two_pow_sub_one_eq_mod]
    rfl
  · have hand : (piece &&& continuation).toNat =
        (piece.toNat.testBit (w.bits - 1)).toNat * w.base := by
      rw [UInt64.toNat_and, hnat, VbrWidth.base, Nat.and_two_pow]
    have hbit : piece.toNat.testBit (w.bits - 1) = decide (w.base ≤ piece.toNat) := by
      rw [Nat.testBit_eq_decide_div_mod_eq, decide_eq_decide]
      show piece.toNat / w.base % 2 = 1 ↔ _
      have hdiv : piece.toNat / w.base < 2 := (Nat.div_lt_iff_lt_mul hone).mpr (by omega)
      rw [Nat.mod_eq_of_lt hdiv]
      have := Nat.div_pos_iff (a := piece.toNat) (b := w.base)
      omega
    rw [← UInt64.toNat_inj, hand, hbit, UInt64.toNat_zero]
    by_cases hle : w.base ≤ piece.toNat
    · simp [hle]
      omega
    · simp [hle]
      omega

theorem exists_spilled? (payload : UInt64) {shift : Nat} (hshift : shift < 64) :
    ∃ spilled, spilled? payload shift = some spilled ∧
      (spilled ≠ 0 ↔ 2 ^ 64 ≤ payload.toNat * 2 ^ shift) := by
  by_cases hzero : shift = 0
  · refine ⟨0, if_pos hzero, ?_⟩
    have := payload.toNat_lt
    subst hzero
    simp
    omega
  · obtain ⟨spilled, hspilled, hnat⟩ := exists_shiftRight? payload (show 64 - shift < 64 by omega)
    refine ⟨spilled, by rw [spilled?, if_neg hzero, hspilled], ?_⟩
    have hpow : 2 ^ 64 = 2 ^ (64 - shift) * 2 ^ shift := by
      rw [← Nat.pow_add, Nat.sub_add_cancel (Nat.le_of_lt hshift)]
    rw [Ne, ← UInt64.toNat_inj, UInt64.toNat_zero, hnat, hpow,
      Nat.mul_le_mul_right_iff (Nat.two_pow_pos shift), Nat.div_eq_zero_iff]
    have := Nat.two_pow_pos (64 - shift)
    omega

/-- One round of both readers: they refuse the same, or take in the same piece of the number, with
which they end or go on behind it. -/
theorem round_cases (w : VbrWidth) (hw : w.bits ≤ 64) (start : Nat) {shift : Nat} {value : UInt64}
    (hvalue : value.toNat < 2 ^ shift) (hc : c.On bytes) :
    (∃ e, w.readFrom? bytes start shift value c = some (.error e) ∧
      w.readFrom start shift c = .error e) ∨
    ∃ (part : Nat) (value' : UInt64) (c' : Cursor), value'.toNat = value.toNat + part ∧
      c'.On bytes ∧
      (w.readFrom? bytes start shift value c = some (.ok (value', c')) ∧
          w.readFrom start shift c = .ok (part, c') ∨
        shift < 64 ∧ value'.toNat < 2 ^ (shift + (w.bits - 1)) ∧
          w.readFrom? bytes start shift value c =
            w.readFrom? bytes start (shift + (w.bits - 1)) value' c' ∧
          w.readFrom start shift c =
            (do return part + (← w.readFrom start (shift + (w.bits - 1)))) c') := by
  rw [readFrom?, readFrom]
  rcases number_cases hw hc with ⟨e, hg, hr⟩ | ⟨piece, c', hg, hr, hpiece, hc'⟩
  · exact .inl ⟨e, Guarded.bind_apply_error hg, Reader.bind_apply_error hr⟩
  obtain ⟨continuation, hcontinuation, hpayload, hlast⟩ := w.exists_continuation hw hpiece
  rw [Reader.bind_apply_ok hr, Guarded.bind_apply_ok hg, lift_bind hcontinuation]
  dsimp only
  by_cases hshift : 64 ≤ shift
  · rw [dif_pos hshift, dif_pos (.inl hshift)]
    exact .inl ⟨_, rfl, rfl⟩
  rw [dif_neg hshift]
  obtain ⟨spilled, hspilled, hover⟩ :=
    exists_spilled? (piece &&& (continuation - 1)) (Nat.lt_of_not_le hshift)
  obtain ⟨shifted, hshifted, hnat⟩ :=
    exists_shiftLeft? (piece &&& (continuation - 1)) (Nat.lt_of_not_le hshift)
  rw [lift_bind hspilled]
  rw [hpayload] at hover hnat
  by_cases hfits : 2 ^ 64 ≤ piece.toNat % w.base * 2 ^ shift
  · rw [if_pos (hover.mpr hfits), dif_pos (.inr hfits)]
    exact .inl ⟨_, rfl, rfl⟩
  rw [if_neg (hover.not.mpr hfits), dif_neg (by omega), lift_bind hshifted]
  have hor : (value ||| shifted).toNat = value.toNat + piece.toNat % w.base * 2 ^ shift := by
    rw [Nat.mod_eq_of_lt (Nat.lt_of_not_le hfits), Nat.mul_comm] at hnat
    rw [toNat_or_of_lt hvalue hnat, Nat.mul_comm]
  refine .inr ⟨piece.toNat % w.base * 2 ^ shift, value ||| shifted, c', hor, hc', ?_⟩
  by_cases hend : piece.toNat < w.base
  · rw [if_pos (hlast.mpr hend), if_pos hend]
    exact .inl ⟨rfl, rfl⟩
  · rw [if_neg (hlast.not.mpr hend), if_neg hend]
    refine .inr ⟨Nat.lt_of_not_le hshift, ?_, rfl, rfl⟩
    have hsmall : piece.toNat % w.base < w.base :=
      Nat.mod_lt _ (Nat.lt_of_lt_of_le Nat.two_pos w.two_le_base)
    have hmul := Nat.mul_le_mul_right (2 ^ shift) hsmall
    rw [Nat.succ_mul] at hmul
    rw [hor, Nat.pow_add, Nat.mul_comm (2 ^ shift)]
    exact Nat.lt_of_lt_of_le (by omega) hmul

/-- The pieces that are still to come are put above those that a program has in its word. -/
theorem exists_readFrom? (w : VbrWidth) (hw : w.bits ≤ 64) (start : Nat) {shift : Nat}
    {value : UInt64} {c : Cursor} (hvalue : value.toNat < 2 ^ shift) (hc : c.On bytes) :
    ∃ outcome : Except Error (UInt64 × Cursor),
      w.readFrom? bytes start shift value c = some outcome ∧
      (w.readFrom start shift c).map (fun p => (value.toNat + p.1, p.2)) =
        outcome.map fun p => (p.1.toNat, p.2) := by
  induction h : 64 - shift using Nat.strongRecOn generalizing shift value c with
  | ind n ih =>
    rcases w.round_cases hw start hvalue hc with
      ⟨e, hg, hr⟩ | ⟨part, value', c', hpart, hc', ⟨hg, hr⟩ | ⟨hshift, hvalue', hg, hr⟩⟩
    · rw [hg, hr]
      exact ⟨_, rfl, rfl⟩
    · rw [hg, hr]
      refine ⟨_, rfl, ?_⟩
      rw [Except.map, Except.map, hpart]
    · have htwo := w.two_le
      obtain ⟨outcome, houtcome, hmap⟩ := ih _ (by omega) hvalue' hc' rfl
      refine ⟨outcome, hg.trans houtcome, ?_⟩
      rw [hr, ← hmap, hpart]
      cases hmore : w.readFrom start (shift + (w.bits - 1)) c' with
      | error e => rw [Reader.bind_apply_error hmore, Except.map, Except.map]
      | ok p =>
        rw [Reader.bind_apply_ok hmore]
        show Except.ok (value.toNat + (part + p.1), p.2) = .ok (value.toNat + part + p.1, p.2)
        rw [Nat.add_assoc]

/-- Reads a variable-width number. -/
def read? (bytes : List UInt8) (w : VbrWidth) : Guarded UInt64 := do
  w.readFrom? bytes (← get).position 0 0

theorem refines_read (w : VbrWidth) (hw : w.bits ≤ 64) : Refines bytes (w.read? bytes) w.read := by
  intro c hc
  have hzero : (0 : UInt64).toNat < 2 ^ 0 := by decide
  obtain ⟨outcome, houtcome, hmap⟩ := w.exists_readFrom? hw c.position hzero hc
  refine ⟨outcome, houtcome, ?_⟩
  rw [← hmap]
  show w.readFrom c.position 0 c = _
  cases w.readFrom c.position 0 c with
  | error e => rfl
  | ok p => simp [Except.map]

end VbrWidth

/-! ## Scalars -/

namespace Scalar

/-- The numbers of a scalar fit into words of 64 bits, and none is wider. -/
def InRange : Scalar → Prop
  | literal value => value < 2 ^ 64
  | fixed width => 0 < width ∧ width ≤ 64
  | vbr width => width.bits ≤ 64
  | character => True

/-- The characters that six bits can stand for, in the order of their numbers. -/
def alphabet : List Char :=
  "abcdefghijklmnopqrstuvwxyzABCDEFGHIJKLMNOPQRSTUVWXYZ0123456789._".toList

/-- Reads a scalar, a character by its place in the alphabet. -/
def read? (bytes : List UInt8) : Scalar → Guarded UInt64
  | literal value => return UInt64.ofNat value
  | fixed width => Guarded.number bytes width
  | vbr width => width.read? bytes
  | character => do
    let n ← Guarded.number bytes 6
    return UInt64.ofNat (← alphabet[n.toNat]?).toNat

theorem getElem?_alphabet {n : Nat} (hn : n < 64) :
    alphabet[n]?.map Char.toNat = some (characterCode n) := by
  have hall : ∀ n : Fin 64, alphabet[n.val]?.map Char.toNat = some (characterCode n) := by
    decide +kernel
  exact hall ⟨n, hn⟩

theorem characterCode_lt (n : Nat) (hn : n < 64) : characterCode n < 2 ^ 64 := by
  have hall : ∀ n : Fin 64, characterCode n < 2 ^ 64 := by decide
  exact hall ⟨n, hn⟩

theorem refines_read {s : Scalar} (hs : s.InRange) : Refines bytes (s.read? bytes) s.read := by
  intro c hc
  cases s with
  | literal value =>
    refine ⟨.ok (UInt64.ofNat value, c), rfl, ?_⟩
    show Except.ok (value, c) = .ok ((UInt64.ofNat value).toNat, c)
    rw [UInt64.toNat_ofNat_of_lt' hs]
  | fixed width => exact refines_number hs.2 c hc
  | vbr width => exact width.refines_read hs c hc
  | character =>
    show ∃ outcome : Except Error (UInt64 × Cursor), (Guarded.number bytes 6 >>= _) c = _ ∧
      (Reader.number 6 >>= _) c = _
    have hsix : 6 ≤ 64 := by decide
    rcases number_cases hsix hc with ⟨e, hg, hr⟩ | ⟨n, c', hg, hr, hn, -⟩
    · rw [Reader.bind_apply_error hr, Guarded.bind_apply_error hg]
      exact ⟨.error e, rfl, rfl⟩
    · obtain ⟨letter, hletter, hcode⟩ := Option.map_eq_some_iff.mp (getElem?_alphabet hn)
      rw [Reader.bind_apply_ok hr, Guarded.bind_apply_ok hg, hletter]
      refine ⟨.ok (UInt64.ofNat letter.toNat, c'), rfl, ?_⟩
      show Except.ok (characterCode n.toNat, c') = .ok ((UInt64.ofNat letter.toNat).toNat, c')
      rw [hcode, UInt64.toNat_ofNat_of_lt' (characterCode_lt _ hn)]

end Scalar

end CircuitQir.Bitstream
