import CircuitQir.Proofs.Bitstream.Contents
/-!
# Where blocks stand

The body of a block starts on a word boundary and ends on one. Fields on a word boundary are laid
out as they are at the start of a stream, so the length of a body can be stated ahead of it.
-/

namespace CircuitQir.Bitstream

/-! ## Words -/

theorem padding_add {position : Nat} (h : position % 32 = 0) (offset : Nat) :
    padding (position + offset) = padding offset := by
  unfold padding
  omega

theorem add_padding_mod (position : Nat) : (position + padding position) % 32 = 0 := by
  unfold padding
  omega

namespace Field

/-- On a word boundary fields are laid out as at the start. -/
theorem extent_add {position : Nat} (h : position % 32 = 0) (offset : Nat) (fs : List Field) :
    extent (position + offset) fs = position + extent offset fs := by
  induction fs generalizing offset with
  | nil => rfl
  | cons f fs ih =>
    have hf : f.after (position + offset) = position + f.after offset := by
      cases f with
      | number value width => simp [after, Nat.add_assoc]
      | align => simp [after, padding_add h, Nat.add_assoc]
    show extent (f.after (position + offset)) fs = position + extent (f.after offset) fs
    rw [hf, ih]

theorem extent_align_mod (position : Nat) (fs : List Field) :
    extent position (fs ++ [.align]) % 32 = 0 := by
  rw [extent_append]
  exact add_padding_mod _

/-- The bytes take up at least their own bits. -/
theorem length_bits_bytes (position : Nat) (bytes : List UInt8) (fs : List Field) :
    bytes.length * 8 ≤
      (bits position (bytes.map (fun b => .number b.toNat 8) ++ fs)).length := by
  induction bytes generalizing position with
  | nil => simp
  | cons b bytes ih =>
    have := ih (position + 8)
    simp only [List.map_cons, List.cons_append, bits, bitsAt, after,
      List.length_append, Bits.length_ofNat, List.length_cons]
    omega

end Field

/-! ## Blocks -/

/-- The fields of the start of a block behind its abbreviation id. -/
def BlockHeader.fields (id width words : Nat) : List Field :=
  VbrWidth.eight.fields id ++ VbrWidth.four.fields width ++ [.align, .number words 32]

/-- The body of a block starts on a word boundary. -/
theorem BlockHeader.extent_mod (position id width words : Nat) :
    Field.extent position (fields id width words) % 32 = 0 := by
  have hsplit : fields id width words =
      (VbrWidth.eight.fields id ++ VbrWidth.four.fields width ++ [.align]) ++
        [.number words 32] := by simp [fields]
  have := Field.extent_align_mod position (VbrWidth.eight.fields id ++ VbrWidth.four.fields width)
  rw [hsplit, Field.extent_append]
  show (_ + 32) % 32 = 0
  omega

namespace Item

/-- The fields of a block behind its abbreviation id. -/
def blockFields (id width : Nat) (items : List Item) : List Field :=
  BlockHeader.fields id width (lengthWord (body width items)) ++ body width items

theorem fields_block (outerWidth id width : Nat) (items : List Item) :
    fields outerWidth (.block id width items) =
      .number 1 outerWidth :: blockFields id width items := by
  simp [fields, blockFields, BlockHeader.fields, body]

theorem lengthWord_lt (fs : List Field) : lengthWord fs < 2 ^ 32 := by
  unfold lengthWord
  omega

variable {width : Nat} {items : List Item}

theorem extent_body (start : Nat) (hstart : start % 32 = 0) :
    Field.extent start (body width items) =
      start + Field.extent 0 (body width items) :=
  Field.extent_add hstart 0 _

/-- Behind the end of a block there is a word boundary. -/
theorem extent_ended_mod (width : Nat) (fs : List Field) :
    Field.extent 0 (fs ++ endBlock width) % 32 = 0 := by
  have hsplit : fs ++ endBlock width = (fs ++ [.number 0 width]) ++ [.align] := by
    simp [endBlock]
  rw [hsplit]
  exact Field.extent_align_mod _ _

theorem extent_body_mod : Field.extent 0 (body width items) % 32 = 0 :=
  extent_ended_mod width _

/-- The length of a block is right exactly if its words can be stated. -/
theorem lengthWord_ended_iff (width : Nat) (fs : List Field) :
    lengthWord (fs ++ endBlock width) * 32 = Field.extent 0 (fs ++ endBlock width) ↔
      Field.extent 0 (fs ++ endBlock width) / 32 < 2 ^ 32 := by
  have hmod := extent_ended_mod width fs
  unfold lengthWord
  omega

theorem lengthWord_mul_eq_iff : lengthWord (body width items) * 32 =
    Field.extent 0 (body width items) ↔ Field.extent 0 (body width items) / 32 < 2 ^ 32 :=
  lengthWord_ended_iff width _

/-- Blocks one after the other leave a word boundary. -/
theorem extent_blocks_mod (outer : Nat) : ∀ (items : List Item) {position : Nat},
    (∀ i ∈ items, ∃ id width inner, i = block id width inner) → position % 32 = 0 →
      Field.extent position (listFields outer items) % 32 = 0
  | [], _, _, h => h
  | i :: is, position, hblocks, h => by
    obtain ⟨hi, his⟩ := List.forall_mem_cons.mp hblocks
    obtain ⟨id, width, inner, rfl⟩ := hi
    rw [listFields, Field.extent_append]
    refine extent_blocks_mod outer is his ?_
    have hstart := BlockHeader.extent_mod (position + outer) id width
      (lengthWord (body width inner))
    have hbody : Field.extent 0 (body width inner) % 32 = 0 := extent_body_mod
    rw [fields_block, blockFields]
    show Field.extent (position + outer) (_ ++ body width inner) % 32 = 0
    rw [Field.extent_append, extent_body _ hstart]
    omega

end Item

end CircuitQir.Bitstream
