import CircuitQir.Proofs.Bitstream.Machine
/-!
# Packing with a word of 64 bits

A program that packs bits holds those that wait for their word to fill in one word of 64 bits: it
shifts a number to its place above them, puts it in with an "or", and moves the lower half of the
word to a buffer once it is full. An `Accumulator` does this with operations that can fault.

On fields that fit their widths it does not fault, and goes along with a `Packer`, whose waiting
bits are a number of any size (`exists_foldlM_write?`). So the bytes of both are the bits of the
fields, and a reader that takes single bits out of the bytes gets the numbers back
(`packedBitwise`).
-/

namespace CircuitQir.Bitstream

/-- Whole words of a stream, and one word with the bits that wait. -/
structure Accumulator where
  buffer : Array UInt8
  /-- The waiting bits, the first of them least significant. -/
  current : UInt64
  /-- How many bits are waiting. -/
  count : Nat
deriving Repr

namespace Accumulator

def empty : Accumulator := ⟨#[], 0, 0⟩

/-- The lower four bytes of a word, lowest first. -/
def lowBytes (x : UInt64) : List UInt8 :=
  [x.toUInt8, (x >>> 8).toUInt8, (x >>> 16).toUInt8, (x >>> 24).toUInt8]

/-- Puts `width` bits of a word above those that wait. The word has to fit its width, which is not
looked at where the width is 32. -/
def emit? (a : Accumulator) (value : UInt64) (width : Nat) : Option Accumulator := do
  guard (width ≤ 32 ∧ (width = 32 ∨ value >>> UInt64.ofNat width = 0))
  let current := a.current ||| (← shiftLeft? value a.count)
  let count := a.count + width
  if 32 ≤ count then
    let rest ← shiftRight? current 32
    return ⟨a.buffer ++ lowBytes current, rest, count - 32⟩
  else return ⟨a.buffer, current, count⟩

/-- Fills the waiting word with zeros, as many as 32 exceeds those that wait by. -/
def align? (a : Accumulator) : Option Accumulator :=
  if 0 < a.count then do
    guard (a.count ≤ 32)
    a.emit? 0 (32 - a.count)
  else some a

/-- Takes one more field. -/
def write? (a : Accumulator) : Field → Option Accumulator
  | .number value width => a.emit? (UInt64.ofNat value) width
  | .align => a.align?

/-- The bytes that a list of fields is written as. -/
def pack? (fs : List Field) : Option (List UInt8) := do
  let a ← fs.foldlM write? empty
  return (← a.align?).buffer.toList

/-- The packer that has the same bits waiting. -/
def packer (a : Accumulator) : Packer := ⟨a.buffer, a.current.toNat, a.count⟩

/-! ## Along with a packer -/

variable {a : Accumulator} {taken : List Bool}

theorem wordBytes_toNat (x : UInt64) : Packer.wordBytes x.toNat = lowBytes x := by
  have hbyte (n : UInt64) (hn : n.toNat < 64) :
      (x >>> n).toUInt8 = UInt8.ofNat (x.toNat / 2 ^ n.toNat) := by
    rw [← UInt8.toNat_inj, UInt64.toNat_toUInt8, UInt64.toNat_shiftRight, UInt8.toNat_ofNat',
      Nat.mod_eq_of_lt hn, Nat.shiftRight_eq_div_pow]
  have hlow : x.toUInt8 = UInt8.ofNat x.toNat := by
    rw [← UInt8.toNat_inj, UInt64.toNat_toUInt8, UInt8.toNat_ofNat']
  rw [Packer.wordBytes, lowBytes, hlow, hbyte 8 (by decide), hbyte 16 (by decide),
    hbyte 24 (by decide)]
  rfl

theorem guard_bind {α : Type} {p : Prop} [Decidable p] (h : p) (f : Unit → Option α) :
    (guard p >>= f) = f () := by
  rw [guard, if_pos h]
  rfl

/-- A word that fits its width passes the check. -/
theorem shiftRight_eq_zero {value : UInt64} {width : Nat} (hwidth : width ≤ 32)
    (hvalue : value.toNat < 2 ^ width) : value >>> UInt64.ofNat width = 0 := by
  rw [← UInt64.toNat_inj, UInt64.toNat_shiftRight, UInt64.toNat_ofNat',
    Nat.mod_eq_of_lt (show width < 2 ^ 64 by omega), Nat.mod_eq_of_lt (show width < 64 by omega),
    Nat.shiftRight_eq_div_pow, Nat.div_eq_of_lt hvalue]
  rfl

/-- There is room for 32 bits above those that wait, so none is lost. -/
theorem exists_emit? (h : a.packer.Holds taken) {value : UInt64} {width : Nat}
    (hwidth : width ≤ 32) (hvalue : value.toNat < 2 ^ width) :
    ∃ a', a.emit? value width = some a' ∧ a'.packer = a.packer.emit value.toNat width := by
  have hcount : a.count < 32 := h.count_lt
  have hpending : a.current.toNat < 2 ^ a.count := h.pending_lt
  obtain ⟨shifted, hshifted, hnat⟩ := exists_shiftLeft? value (show a.count < 64 by omega)
  have hroom : value.toNat * 2 ^ a.count < 2 ^ 64 := by
    calc value.toNat * 2 ^ a.count < 2 ^ width * 2 ^ a.count :=
          Nat.mul_lt_mul_of_pos_right hvalue (Nat.two_pow_pos _)
      _ = 2 ^ (width + a.count) := (Nat.pow_add ..).symm
      _ ≤ 2 ^ 64 := Nat.pow_le_pow_right (by decide) (by omega)
  rw [Nat.mod_eq_of_lt hroom, Nat.mul_comm] at hnat
  have hcurrent : (a.current ||| shifted).toNat = a.current.toNat + value.toNat * 2 ^ a.count := by
    rw [toNat_or_of_lt hpending hnat, Nat.mul_comm]
  obtain ⟨rest, hrest, hrest'⟩ :=
    exists_shiftRight? (a.current ||| shifted) (show 32 < 64 by decide)
  have hfits : width ≤ 32 ∧ (width = 32 ∨ value >>> UInt64.ofNat width = 0) :=
    ⟨hwidth, .inr (shiftRight_eq_zero hwidth hvalue)⟩
  rw [emit?, guard_bind hfits, hshifted, Option.bind_eq_bind, Option.bind_some, Packer.emit]
  by_cases hfull : 32 ≤ a.count + width
  · rw [if_pos hfull, if_pos (show 32 ≤ a.packer.count + width from hfull), hrest]
    refine ⟨_, rfl, ?_⟩
    rw [packer, ← wordBytes_toNat, hrest', hcurrent]
    rfl
  · rw [if_neg hfull, if_neg (show ¬ 32 ≤ a.packer.count + width from hfull)]
    refine ⟨_, rfl, ?_⟩
    rw [packer, hcurrent]
    rfl

theorem exists_align? (h : a.packer.Holds taken) :
    ∃ a', a.align? = some a' ∧ a'.packer = a.packer.align := by
  have hcount : a.count < 32 := h.count_lt
  unfold align? Packer.align
  by_cases hzero : a.count = 0
  · rw [if_neg (by omega), if_pos (show a.packer.count = 0 from hzero)]
    exact ⟨a, rfl, rfl⟩
  · rw [if_pos (by omega), if_neg (show a.packer.count ≠ 0 from hzero),
      guard_bind (show a.count ≤ 32 by omega)]
    exact exists_emit? h (by omega) (Nat.two_pow_pos _)

theorem exists_write? (h : a.packer.Holds taken) {f : Field} (hf : f.Valid) :
    ∃ a', a.write? f = some a' ∧ a'.packer = a.packer.write f := by
  cases f with
  | number value width =>
    obtain ⟨hwidth, hvalue⟩ := hf
    have hsmall : value < 2 ^ 64 :=
      Nat.lt_of_lt_of_le hvalue (Nat.pow_le_pow_right (by decide) (by omega))
    have hword : (UInt64.ofNat value).toNat = value := UInt64.toNat_ofNat_of_lt' hsmall
    obtain ⟨a', ha', hpacker⟩ := exists_emit? h hwidth (show (UInt64.ofNat value).toNat < 2 ^ width
      by rwa [hword])
    rw [hword] at hpacker
    exact ⟨a', ha', hpacker⟩
  | align => exact exists_align? h

/-- Fields taken one after the other, each with the bits before it as the packer holds them. -/
theorem exists_foldlM_write? {fs : List Field} (h : a.packer.Holds taken)
    (hfs : ∀ f ∈ fs, f.Valid) :
    ∃ a', fs.foldlM write? a = some a' ∧ a'.packer = fs.foldl Packer.write a.packer := by
  induction fs generalizing a taken with
  | nil => exact ⟨a, rfl, rfl⟩
  | cons f fs ih =>
    obtain ⟨hf, hfs⟩ := List.forall_mem_cons.mp hfs
    obtain ⟨a₁, ha₁, hpacker⟩ := exists_write? h hf
    have hnext : a₁.packer.Holds (taken ++ f.bitsAt taken.length) := by
      rw [hpacker]
      exact h.write hf
    obtain ⟨a₂, ha₂, hrun⟩ := ih hnext hfs
    refine ⟨a₂, ?_, by rw [hrun, hpacker, List.foldl_cons]⟩
    rw [List.foldlM_cons, ha₁]
    exact ha₂

theorem pack?_eq {fs : List Field} (hfs : ∀ f ∈ fs, f.Valid) : pack? fs = some (pack fs) := by
  have hstart : empty.packer.Holds [] := Packer.holds_empty
  obtain ⟨a, ha, hrun⟩ := exists_foldlM_write? hstart hfs
  have hheld : a.packer.Holds (Field.bits 0 fs) := by
    rw [hrun]
    exact hstart.foldl_write hfs
  obtain ⟨a', ha', halign⟩ := exists_align? hheld
  rw [pack?, ha]
  show (do return (← a.align?).buffer.toList) = some (pack fs)
  rw [ha']
  show some a'.packer.bytes.toList = _
  rw [halign, hrun]
  rfl

end Accumulator

/-! ## Reading with the same widths -/

/-- The bits of a number are read as it. -/
theorem Reader.number_ofNat {value width : Nat} (hvalue : value < 2 ^ width) (position : Nat)
    (rest : List Bool) : Reader.number width ⟨position, Bits.ofNat width value ++ rest⟩ =
      .ok (value, ⟨position + width, rest⟩) := by
  have hreads := Reader.reads_number hvalue position rest
  rwa [Field.bits, Field.bits, List.append_nil] at hreads

namespace Field

/-- The numbers among some fields. -/
def values : List Field → List Nat
  | [] => []
  | number value _ :: fs => value :: values fs
  | align :: fs => values fs

/-- Reads a number of the same width for each number among some fields, and passes over the zeros of
each alignment. -/
def readWith {m : Type → Type} [Monad m] {α : Type} (number : Nat → m α) (align : m Unit) :
    List Field → m (List α)
  | [] => return []
  | .number _ width :: fs => do
    let x ← number width
    return x :: (← readWith number align fs)
  | .align :: fs => do
    align
    readWith number align fs

/-- Read with their widths, fields give their numbers. -/
theorem reads_readWith : ∀ {fs : List Field}, (∀ f ∈ fs, f.Valid) →
    Reader.Reads (readWith Reader.number Reader.align fs) (values fs) fs
  | [], _ => Reader.reads_pure _
  | .number value width :: fs, h => by
    obtain ⟨hf, hfs⟩ := List.forall_mem_cons.mp h
    exact (Reader.reads_number hf.2).bind ((reads_readWith hfs).map fun xs => value :: xs)
  | .align :: fs, h => by
    have hfs := (List.forall_mem_cons.mp h).2
    exact Reader.reads_align.bind (reads_readWith hfs)

end Field

namespace Guarded

variable {bytes : List UInt8} {c : Cursor} {rest : List Bool}

/-- Passes over the bits up to the next word boundary, which has to be on the input. -/
def align (bytes : List UInt8) : Guarded Unit := do
  let c ← get
  let aligned := (c.position + 31) / 32 * 32
  if 8 * bytes.length < aligned then throw (.endOfInput c.position)
  else set (Cursor.mk aligned (c.rest.drop (aligned - c.position)))

/-- A number that was written with some width is read with it. -/
theorem number_written (hc : c.On bytes) {value width : Nat} (hwidth : width ≤ 64)
    (hvalue : value < 2 ^ width) (hrest : c.rest = Bits.ofNat width value ++ rest) :
    number bytes width c = some (.ok (UInt64.ofNat value, ⟨c.position + width, rest⟩)) ∧
      Cursor.On bytes ⟨c.position + width, rest⟩ := by
  have hread : Reader.number width c = .ok (value, ⟨c.position + width, rest⟩) := by
    have hbits := Reader.number_ofNat hvalue c.position rest
    rwa [← hrest] at hbits
  rcases number_cases hwidth hc with ⟨e, -, hr⟩ | ⟨x, c', hg, hr, -, hc'⟩
  · rw [hread] at hr
    cases hr
  · rw [hread] at hr
    obtain ⟨hx, rfl⟩ := Prod.mk.inj (Except.ok.inj hr)
    refine ⟨?_, hc'⟩
    rw [hg, hx, UInt64.ofNat_toNat]

theorem align_written (hc : c.On bytes)
    (hrest : c.rest = List.replicate (padding c.position) false ++ rest) :
    align bytes c = some (.ok ((), ⟨c.position + padding c.position, rest⟩)) ∧
      Cursor.On bytes ⟨c.position + padding c.position, rest⟩ := by
  have hlength := hc.length_rest
  have hle := hc.position_le
  rw [hrest, List.length_append, List.length_replicate] at hlength
  have haligned : (c.position + 31) / 32 * 32 = c.position + padding c.position := by
    unfold padding
    omega
  have hdrop : c.rest.drop (padding c.position) = rest := by
    rw [hrest, List.drop_left' List.length_replicate]
  have hroom : c.position + padding c.position ≤ 8 * bytes.length := by omega
  refine ⟨?_, by rw [← hdrop]; exact hc.drop hroom⟩
  show (if 8 * bytes.length < (c.position + 31) / 32 * 32 then _ else _ : Guarded Unit) c = _
  rw [haligned, if_neg (by omega), Nat.add_sub_cancel_left, hdrop]
  rfl

/-- Where fields were written, a program that takes out bit by bit reads their numbers. -/
theorem readWith_written : ∀ {fs : List Field} {c : Cursor}, c.On bytes → (∀ f ∈ fs, f.Valid) →
    c.rest = Field.bits c.position fs ++ rest →
    Field.readWith (number bytes) (align bytes) fs c =
      some (.ok ((Field.values fs).map UInt64.ofNat, ⟨Field.extent c.position fs, rest⟩))
  | [], c, _, _, hrest => by
    obtain rfl : c.rest = rest := hrest
    rfl
  | .number value width :: fs, c, hc, hfs, hrest => by
    obtain ⟨⟨hwidth, hvalue⟩, hfs⟩ := List.forall_mem_cons.mp hfs
    rw [Field.bits, List.append_assoc] at hrest
    obtain ⟨hnumber, hc'⟩ := number_written hc (by omega) hvalue hrest
    have hmore := readWith_written hc' hfs rfl
    rw [Field.readWith, bind_apply_ok hnumber, bind_apply_ok hmore]
    rfl
  | .align :: fs, c, hc, hfs, hrest => by
    have hfs := (List.forall_mem_cons.mp hfs).2
    rw [Field.bits, List.append_assoc] at hrest
    obtain ⟨halign, hc'⟩ := align_written hc hrest
    rw [Field.readWith, bind_apply_ok halign, readWith_written hc' hfs rfl]
    rfl

end Guarded

/-! ## Packing bit by bit -/

/-- What it is to pack fields bit by bit. -/
structure PackedBitwise (fs : List Field) : Prop where
  /-- Behind any of the fields, no operation on words has faulted, whole words are in the buffer,
  fewer than 32 bits are waiting with nothing above them, and all together are the bits taken. -/
  throughout : ∀ front back, fs = front ++ back → ∃ a,
    front.foldlM Accumulator.write? .empty = some a ∧
      a.packer = front.foldl Packer.write .empty ∧ a.packer.Holds (Field.bits 0 front)
  /-- Words of 64 bits give the same bytes as numbers of any size. -/
  words : Accumulator.pack? fs = some (pack fs)
  /-- The bits of the bytes are those of the fields, filled up to whole words. -/
  bits : Bits.ofBytes (pack fs) = Field.bits 0 (fs ++ [.align])
  /-- The numbers are read back with the same widths. -/
  values : Field.readWith Reader.number Reader.align fs ⟨0, Bits.ofBytes (pack fs)⟩ =
    .ok (Field.values fs,
      ⟨Field.extent 0 fs, List.replicate (padding (Field.extent 0 fs)) false⟩)
  /-- So they are, as words, by a program that takes single bits out of the bytes. -/
  wordValues : Field.readWith (Guarded.number (pack fs)) (Guarded.align (pack fs)) fs
      ⟨0, Bits.ofBytes (pack fs)⟩ =
    some (.ok ((Field.values fs).map UInt64.ofNat,
      ⟨Field.extent 0 fs, List.replicate (padding (Field.extent 0 fs)) false⟩))

/-- Numbers that fit their widths, none above 32, and alignments are packed bit by bit. -/
theorem packedBitwise {fs : List Field} (hfs : ∀ f ∈ fs, f.Valid) : PackedBitwise fs := by
  have hbits := ofBytes_pack hfs
  have hon : Cursor.On (pack fs) ⟨0, Bits.ofBytes (pack fs)⟩ := ⟨Nat.zero_le _, rfl⟩
  refine ⟨?_, Accumulator.pack?_eq hfs, ?_, ?_, Guarded.readWith_written hon hfs hbits⟩
  · rintro front back rfl
    have hfront : ∀ f ∈ front, f.Valid := fun f hf => hfs f (List.mem_append_left _ hf)
    have hstart : Accumulator.empty.packer.Holds [] := Packer.holds_empty
    obtain ⟨a, ha, hpacker⟩ := Accumulator.exists_foldlM_write? hstart hfront
    refine ⟨a, ha, hpacker, ?_⟩
    rw [hpacker]
    exact hstart.foldl_write hfront
  · rw [hbits, Field.bits_append]
    simp [Field.bits, Field.bitsAt]
  · rw [hbits]
    exact Field.reads_readWith hfs 0 _

/-- Numbers of no bits, of whole words and across the boundary of one, with alignments in places
where there is something to fill and where there is not. -/
def straddling : List Field :=
  [.number 0 0, .align, .number 0xffffffff 32, .number 5 3, .number 0xfffffffe 32, .align,
    .number 1 31, .number 2 2]

theorem packedBitwise_straddling : (∀ f ∈ straddling, f.Valid) ∧
    pack straddling = [255, 255, 255, 255, 245, 255, 255, 255, 7, 0, 0, 0, 1, 0, 0, 0, 1, 0, 0, 0] ∧
      PackedBitwise straddling :=
  have hvalid : ∀ f ∈ straddling, f.Valid := by simp [straddling, Field.Valid]
  ⟨hvalid, by decide, packedBitwise hvalid⟩

end CircuitQir.Bitstream
