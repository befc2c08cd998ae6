import CircuitQir.Proofs.Bitstream.Overflow
import CircuitQir.Proofs.Bitstream.Alignment
/-!
# Reading abbreviations and blobs back

The one layout that is ever defined for writing is read back as it was written, and so are the
blobs written with it, unless a code or a length does not have 64 bits.
-/

namespace CircuitQir.Bitstream

open Reader

theorem Reader.reads_times_succ {α : Type} {r : Reader α} {n : Nat} {x : α} {xs : List α}
    {fs gs : List Field} (hx : Reads r x fs) (hxs : Reads (times r n) xs gs) :
    Reads (times r (n + 1)) (x :: xs) (fs ++ gs) :=
  hx.bind (hxs.map fun xs => x :: xs)

theorem Reader.reads_position {α : Type} {f : Nat → Reader α} {x : α} {fs : List Field}
    (h : ∀ start, Reads (f start) x fs) : Reads (position >>= f) x fs :=
  fun start rest => h start start rest

theorem Reader.refuses_position {α : Type} {f : Nat → Reader α} {fs : List Field}
    (h : ∀ start, Refuses (f start) fs) : Refuses (position >>= f) fs :=
  fun start rest => h start start rest

namespace AbbreviationOperand

theorem reads_literal (start : Nat) {code : Nat} (h : code < 2 ^ 64) :
    Reads (read start) (.scalar (.literal code))
      (.number 1 1 :: VbrWidth.eight.fields code) := by
  have hflag : Reads (number 1) 1 [.number 1 1] := reads_number (by decide)
  show Reads _ _ ([.number 1 1] ++ VbrWidth.eight.fields code)
  refine hflag.bind ?_
  rw [if_pos rfl]
  exact (VbrWidth.eight.reads_vbr h).map fun n => AbbreviationOperand.scalar (.literal n)

theorem refuses_literal (start : Nat) {code : Nat} (h : ¬ code < 2 ^ 64) :
    Refuses (read start) (.number 1 1 :: VbrWidth.eight.fields code) := by
  have hflag : Reads (number 1) 1 [.number 1 1] := reads_number (by decide)
  show Refuses _ ([.number 1 1] ++ VbrWidth.eight.fields code)
  refine hflag.bind_refuses ?_
  rw [if_pos rfl]
  exact (VbrWidth.eight.refuses_read h).last _

theorem reads_blob (start : Nat) : Reads (read start) .blob [.number 0 1, .number 5 3] := by
  have hflag : Reads (number 1) 0 [.number 0 1] := reads_number (by decide)
  have hkind : Reads (number 3) 5 [.number 5 3] := reads_number (by decide)
  exact hflag.bind (hkind.last (reads_pure _))

end AbbreviationOperand

namespace Abbreviation

/-- The fields that define the layout of a blob. -/
def blobFields (code : Nat) : List Field :=
  VbrWidth.five.fields 2 ++
    (.number 1 1 :: VbrWidth.eight.fields code ++ [.number 0 1, .number 5 3])

theorem reads_blobLayout {code : Nat} (h : code < 2 ^ 64) :
    Reads read (blobLayout code) (blobFields code) := by
  refine reads_position ?_
  intro start
  refine (VbrWidth.five.reads_vbr (by decide)).bind ?_
  have hoperands : Reads (times (AbbreviationOperand.read start) 2)
      [.scalar (.literal code), .blob]
      (.number 1 1 :: VbrWidth.eight.fields code ++ [.number 0 1, .number 5 3]) := by
    have hnone : Reads (times (AbbreviationOperand.read start) 0) [] [] := reads_pure []
    have hblob := reads_times_succ (AbbreviationOperand.reads_blob start) hnone
    exact reads_times_succ (AbbreviationOperand.reads_literal start h) hblob
  exact hoperands.last (reads_pure _)

theorem refuses_blobLayout {code : Nat} (h : ¬ code < 2 ^ 64) :
    Refuses read (blobFields code) := by
  refine refuses_position ?_
  intro start
  refine (VbrWidth.five.reads_vbr (by decide)).bind_refuses ?_
  have hoperands : Refuses (times (AbbreviationOperand.read start) 2)
      (.number 1 1 :: VbrWidth.eight.fields code ++ [.number 0 1, .number 5 3]) :=
    (AbbreviationOperand.refuses_literal start h).bind _ _
  exact hoperands.last _

end Abbreviation

namespace Record

/-- The fields of the bytes of a blob. -/
def blobFields (bytes : List UInt8) : List Field :=
  VbrWidth.six.fields bytes.length ++
    (.align :: bytes.map (fun b => .number b.toNat 8) ++ [.align])

theorem reads_readBlob {bytes : List UInt8} (h : bytes.length < 2 ^ 64) :
    Reads readBlob bytes (blobFields bytes) := by
  have hbytes : Reads (times (number 8) bytes.length) (bytes.map UInt8.toNat)
      (bytes.map fun b => .number b.toNat 8) := by
    have hread : Reads (times (number 8) bytes.length) (bytes.map UInt8.toNat)
        (bytes.flatMap fun b => [.number b.toNat 8]) :=
      reads_times_map fun b _ => reads_number b.toNat_lt
    rwa [← List.map_eq_flatMap] at hread
  have hback : (bytes.map UInt8.toNat).map UInt8.ofNat = bytes := by
    rw [List.map_map]
    exact List.map_id'' (fun b => UInt8.ofNat_toNat) bytes
  have hrest : Reads (align >>= fun _ => times (number 8) bytes.length >>= fun ns =>
      align >>= fun _ => pure (ns.map UInt8.ofNat)) bytes
      (.align :: bytes.map (fun b => .number b.toNat 8) ++ [.align]) := by
    refine reads_align.bind (hbytes.bind (reads_align.last ?_))
    rw [hback]
    exact reads_pure bytes
  intro position rest
  have hcount := (VbrWidth.six.reads_vbr h).bind_apply
    (f := fun count => get >>= fun c =>
      if c.rest.length < count * 8 then throw (.endOfInput c.position)
      else align >>= fun _ => times (number 8) count >>= fun ns =>
        align >>= fun _ => pure (ns.map UInt8.ofNat))
    (.align :: bytes.map (fun b => .number b.toNat 8) ++ [.align]) position rest
  refine hcount.trans ?_
  -- The length check sees the whole rest of the input, of which the bytes are a part.
  have hroom := Field.length_bits_bytes
    (Field.after (Field.extent position (VbrWidth.six.fields bytes.length)) .align) bytes [.align]
  show (if _ then throw _ else _ : Reader (List UInt8)) _ = _
  rw [if_neg]
  · exact (hrest _ rest).trans (by simp only [blobFields, Field.extent_append])
  · simp only [List.cons_append, Field.bits, List.length_append]
    omega

theorem refuses_readBlob {bytes : List UInt8} (h : ¬ bytes.length < 2 ^ 64) :
    Refuses readBlob (blobFields bytes) :=
  (VbrWidth.six.refuses_read h).bind _ _

theorem reads_readAbbreviated (code : Nat) {bytes : List UInt8} (h : bytes.length < 2 ^ 64) :
    Reads (readAbbreviated (blobLayout code)) ⟨code, [], some bytes⟩ (blobFields bytes) :=
  (reads_readBlob h).map fun bytes => Record.mk code [] (some bytes)

theorem refuses_readAbbreviated (code : Nat) {bytes : List UInt8}
    (h : ¬ bytes.length < 2 ^ 64) :
    Refuses (readAbbreviated (blobLayout code)) (blobFields bytes) := by
  exact (refuses_readBlob h).last fun bytes => pure (Record.mk code [] (some bytes))

end Record

end CircuitQir.Bitstream
