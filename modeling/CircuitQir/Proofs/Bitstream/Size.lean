import CircuitQir.Proofs.Bitstream.Alignment
/-!
# How much room items take

Every item and every operand takes at least one bit, so a short stream holds few of them
(`count_le_bits`). What is left to ask of a stream so that it fits is that its numbers are small
and its bodies have room for fewer than `2 ^ 32` words (`listFits_of_blocks`); in a short stream
they always have (`listFits_of_bits`).
-/

namespace CircuitQir.Bitstream

theorem VbrWidth.one_le_bits (w : VbrWidth) (value position : Nat) :
    1 ≤ (Field.bits position (w.fields value)).length := by
  have := w.two_le
  rw [fields]
  split <;> simp [Field.bits, Field.bitsAt] <;> omega

namespace Field

theorem length_bits_append (position : Nat) (fs gs : List Field) :
    (bits position (fs ++ gs)).length =
      (bits position fs).length + (bits (extent position fs) gs).length := by
  rw [bits_append, List.length_append]

theorem length_bits_number (position value width : Nat) (fs : List Field) :
    (bits position (.number value width :: fs)).length =
      width + (bits (position + width) fs).length := by
  simp [bits, bitsAt, after]

/-- Fields of several numbers take a bit for each of them. -/
theorem length_le_bits_flatMap {α : Type} {f : α → List Field}
    (h : ∀ x position, 1 ≤ (bits position (f x)).length) (xs : List α) (position : Nat) :
    xs.length ≤ (bits position (xs.flatMap f)).length := by
  induction xs generalizing position with
  | nil => exact Nat.zero_le _
  | cons x xs ih =>
    have hx := h x position
    have hxs := ih (extent position (f x))
    rw [List.flatMap_cons, length_bits_append, List.length_cons]
    omega

end Field

namespace Item

/-! ## Counting -/

mutual

/-- How many items and operands there are in an item. -/
def count : Item → Nat
  | record _ ops => 1 + ops.length
  | blobAbbreviation _ => 1
  | blob bytes => 1 + bytes.length
  | block _ _ items => 1 + listCount items

@[inherit_doc count]
def listCount : List Item → Nat
  | [] => 0
  | i :: is => count i + listCount is

end

theorem listCount_append (is js : List Item) :
    listCount (is ++ js) = listCount is + listCount js := by
  induction is with
  | nil => simp [listCount]
  | cons i is ih => simp [listCount, ih, Nat.add_assoc]

theorem one_le_count (i : Item) : 1 ≤ count i := by
  cases i <;> simp [count]

theorem length_le_listCount (is : List Item) : is.length ≤ listCount is := by
  induction is with
  | nil => exact Nat.zero_le _
  | cons i is ih =>
    have := one_le_count i
    rw [List.length_cons, listCount]
    omega

theorem count_le_listCount {i : Item} {is : List Item} (h : i ∈ is) : count i ≤ listCount is := by
  obtain ⟨front, rest, rfl⟩ := List.append_of_mem h
  rw [listCount_append, listCount]
  omega

theorem length_bits_listFields_le (width : Nat) (items : List Item) :
    (Field.bits 0 (listFields width items)).length ≤ Field.extent 0 (body width items) := by
  have h := Field.extent_eq 0 (body width items)
  rw [body, Field.length_bits_append, ← body] at h
  omega

/-- A block takes the bits of its body, wherever it stands, and an abbreviation id. -/
theorem extent_body_le (position outer id width : Nat) (items : List Item) :
    outer + Field.extent 0 (body width items) ≤
      (Field.bits position (fields outer (.block id width items))).length := by
  have hstart := BlockHeader.extent_mod (position + outer) id width
    (lengthWord (body width items))
  have hbody := Field.extent_eq (Field.extent (position + outer)
    (BlockHeader.fields id width (lengthWord (body width items)))) (body width items)
  rw [extent_body _ hstart] at hbody
  rw [fields_block, Field.length_bits_number, blockFields, Field.length_bits_append]
  omega

mutual

theorem count_le_bits : ∀ (i : Item) {depth width : Nat} {codes : List Nat} (position : Nat),
    1 ≤ width → Valid depth width codes i →
    count i ≤ (Field.bits position (fields width i)).length
  | record code ops, _, width, _, position, hw, _ => by
    have hops := Field.length_le_bits_flatMap (VbrWidth.six.one_le_bits) ops
      (Field.extent (position + width)
        (VbrWidth.six.fields code ++ VbrWidth.six.fields ops.length))
    rw [fields, Field.length_bits_number, Field.length_bits_append, count]
    omega
  | blobAbbreviation code, _, width, _, position, hw, _ => by
    rw [fields, Field.length_bits_number, count]
    omega
  | blob bytes, _, width, _, position, hw, _ => by
    have hbytes := Field.length_bits_bytes
      (Field.extent (position + width) (VbrWidth.six.fields bytes.length ++ [.align])) bytes
      [.align]
    have hsplit : fields width (.blob bytes) = .number 4 width ::
        ((VbrWidth.six.fields bytes.length ++ [.align]) ++
          (bytes.map (fun b => .number b.toNat 8) ++ [.align])) := by
      simp [fields]
    rw [hsplit, Field.length_bits_number, Field.length_bits_append, count]
    omega
  | block id inner items, depth, width, _, position, hw, hv => by
    simp only [Valid] at hv
    obtain ⟨-, -, hinner, hitems⟩ := hv
    have h := listCount_le_bits items 0 (by omega) hitems
    have hlist := length_bits_listFields_le inner items
    have hblock := extent_body_le position width id inner items
    rw [count]
    omega

theorem listCount_le_bits : ∀ (is : List Item) {depth width : Nat} {codes : List Nat}
    (position : Nat), 1 ≤ width → ListValid depth width codes is →
    listCount is ≤ (Field.bits position (listFields width is)).length
  | [], _, _, _, _, _, _ => Nat.zero_le _
  | i :: is, depth, width, codes, position, hw, hv => by
    simp only [ListValid] at hv
    have hi := count_le_bits i position hw hv.1
    have his := listCount_le_bits is (Field.extent position (fields width i)) hw hv.2
    rw [listFields, Field.length_bits_append, listCount]
    omega

end

/-! ## Short streams -/

mutual

/-- Every number of the item has 64 bits. -/
def Small : Item → Prop
  | record code ops => code < 2 ^ 64 ∧ ∀ n ∈ ops, n < 2 ^ 64
  | blobAbbreviation code => code < 2 ^ 64
  | blob _ => True
  | block id _ items => id < 2 ^ 64 ∧ ListSmall items

@[inherit_doc Small]
def ListSmall : List Item → Prop
  | [] => True
  | i :: is => Small i ∧ ListSmall is

end

theorem listSmall_iff {items : List Item} : ListSmall items ↔ ∀ i ∈ items, Small i := by
  induction items with
  | nil => simp [ListSmall]
  | cons i is ih => simp [ListSmall, ih]

mutual

/-- Every block in the item has a body of fewer than `2 ^ 32` words. -/
def Bounded : Item → Prop
  | block _ width items =>
    Field.extent 0 (body width items) / 32 < 2 ^ 32 ∧ ListBounded items
  | _ => True

@[inherit_doc Bounded]
def ListBounded : List Item → Prop
  | [] => True
  | i :: is => Bounded i ∧ ListBounded is

end

theorem listBounded_iff {items : List Item} : ListBounded items ↔ ∀ i ∈ items, Bounded i := by
  induction items with
  | nil => simp [ListBounded]
  | cons i is ih => simp [ListBounded, ih]

mutual

/-- A small item whose blocks are bounded fits, if what is not in a block is bounded too. -/
theorem fits_of_bounded : ∀ (i : Item) {depth width : Nat} {codes : List Nat} (position : Nat),
    1 ≤ width → Valid depth width codes i → Small i → Bounded i →
    (Field.bits position (fields width i)).length < 2 ^ 64 → Fits i
  | record code ops, _, width, _, position, hw, hv, hs, _, h => by
    have hcount := count_le_bits (.record code ops) position hw hv
    simp only [count] at hcount
    exact ⟨hs.1, by omega, hs.2⟩
  | blobAbbreviation code, _, _, _, _, _, _, hs, _, _ => hs
  | blob bytes, _, width, _, position, hw, hv, _, _, h => by
    have hcount := count_le_bits (.blob bytes) position hw hv
    simp only [count, Fits] at hcount ⊢
    omega
  | block id inner items, depth, width, _, position, hw, hv, hs, hb, _ => by
    simp only [Valid] at hv
    obtain ⟨-, -, hinner, hitems⟩ := hv
    have hlist := length_bits_listFields_le inner items
    have hbody := hb.1
    exact ⟨hs.1, hb.1, listFits_of_bounded items 0 (by omega) hitems hs.2 hb.2 (by omega)⟩

/-- Small items whose blocks are bounded fit, if what is not in a block is bounded too. -/
theorem listFits_of_bounded : ∀ (is : List Item) {depth width : Nat} {codes : List Nat}
    (position : Nat), 1 ≤ width → ListValid depth width codes is → ListSmall is →
    ListBounded is → (Field.bits position (listFields width is)).length < 2 ^ 64 → ListFits is
  | [], _, _, _, _, _, _, _, _, _ => trivial
  | i :: is, depth, width, codes, position, hw, hv, hs, hb, h => by
    simp only [ListValid] at hv
    rw [listFields, Field.length_bits_append] at h
    exact ⟨fits_of_bounded i position hw hv.1 hs.1 hb.1 (by omega),
      listFits_of_bounded is (Field.extent position (fields width i)) hw hv.2 hs.2 hb.2 (by omega)⟩

end

mutual

/-- Where there is only room for words with a number of 32 bits, blocks are bounded. -/
theorem bounded_of_bits : ∀ (i : Item) (width position : Nat),
    (Field.bits position (fields width i)).length < 2 ^ 37 → Bounded i
  | record _ _, _, _, _ => trivial
  | blobAbbreviation _, _, _, _ => trivial
  | blob _, _, _, _ => trivial
  | block id inner items, width, position, h => by
    have hlist := length_bits_listFields_le inner items
    have hblock := extent_body_le position width id inner items
    exact ⟨by omega, listBounded_of_bits items inner 0 (by omega)⟩

@[inherit_doc bounded_of_bits]
theorem listBounded_of_bits : ∀ (is : List Item) (width position : Nat),
    (Field.bits position (listFields width is)).length < 2 ^ 37 → ListBounded is
  | [], _, _, _ => trivial
  | i :: is, width, position, h => by
    rw [listFields, Field.length_bits_append] at h
    exact ⟨bounded_of_bits i width position (by omega),
      listBounded_of_bits is width (Field.extent position (fields width i)) (by omega)⟩

end

/-- Small items in a short stream fit. -/
theorem listFits_of_bits {is : List Item} {depth width : Nat} {codes : List Nat}
    (position : Nat) (hw : 1 ≤ width) (hv : ListValid depth width codes is) (hs : ListSmall is)
    (h : (Field.bits position (listFields width is)).length < 2 ^ 37) : ListFits is :=
  listFits_of_bounded is position hw hv hs (listBounded_of_bits is width position h) (by omega)

/-- Outside of all blocks only the bodies are limited, and not how many blocks there are. -/
theorem listFits_of_blocks {depth width : Nat} : ∀ {is : List Item} {codes : List Nat},
    (∀ i ∈ is, ∃ id inner items, i = block id inner items) → ListValid depth width codes is →
    ListSmall is → ListBounded is → ListFits is
  | [], _, _, _, _, _ => trivial
  | i :: is, codes, hblocks, hv, hs, hb => by
    obtain ⟨hi, his⟩ := List.forall_mem_cons.mp hblocks
    obtain ⟨id, inner, items, rfl⟩ := hi
    simp only [ListValid, Valid] at hv
    obtain ⟨⟨-, -, hinner, hitems⟩, hrest⟩ := hv
    have hlist := length_bits_listFields_le inner items
    have hbody := hb.1.1
    have hfits : ListFits items :=
      listFits_of_bounded items 0 (by omega) hitems hs.1.2 hb.1.2 (by omega)
    exact ⟨⟨hs.1.1, hbody, hfits⟩, listFits_of_blocks his hrest hs.2 hb.2⟩

end Item

variable {magic : List UInt8} {items : List Item}

theorem valid_magicFields (magic : List UInt8) : ∀ f ∈ magicFields magic, f.Valid := by
  intro f hf
  obtain ⟨b, -, rfl⟩ := List.mem_map.mp hf
  exact ⟨by decide, b.toNat_lt⟩

/-- The fields of a stream can be packed. -/
theorem valid_stream (magic : List UInt8) (hitems : Item.Forest items) :
    ∀ f ∈ magicFields magic ++ Item.listFields topLevelWidth items, f.Valid := by
  intro f hf
  rcases List.mem_append.mp hf with hf | hf
  · exact valid_magicFields magic f hf
  · exact Item.valid_listFields (by decide) items hitems.2 f hf

/-- The bits of a stream are in its bytes. -/
theorem length_bits_le_encode (magic : List UInt8) (hitems : Item.Forest items) :
    (Field.bits (Field.extent 0 (magicFields magic)) (Item.listFields topLevelWidth items)).length ≤
      8 * (encode magic items).length := by
  have h := congrArg List.length (ofBytes_pack (valid_stream magic hitems))
  rw [Bits.length_ofBytes, List.length_append, Field.bits_append, List.length_append] at h
  unfold encode
  omega

/-- The bytes of a stream hold little more than its bits. -/
theorem length_encode_lt (magic : List UInt8) (hitems : Item.Forest items) :
    8 * (encode magic items).length <
      Field.extent 0 (magicFields magic ++ Item.listFields topLevelWidth items) + 32 := by
  have h := congrArg List.length (ofBytes_pack (valid_stream magic hitems))
  rw [Bits.length_ofBytes, List.length_append, List.length_replicate] at h
  rw [encode, h, Field.extent_eq]
  unfold padding
  omega

/-- There are not many items and operands in a short stream. -/
theorem listCount_le_encode (magic : List UInt8) (hitems : Item.Forest items) :
    Item.listCount items ≤ 8 * (encode magic items).length :=
  Nat.le_trans (Item.listCount_le_bits items _ (by decide) hitems.2)
    (length_bits_le_encode magic hitems)

/-- Small items fit if their stream is short. -/
theorem listFits_of_encode (hitems : Item.Forest items) (hsmall : Item.ListSmall items)
    (h : (encode magic items).length < 2 ^ 34) : Item.ListFits items := by
  have hbits := length_bits_le_encode magic hitems
  exact Item.listFits_of_bits (Field.extent 0 (magicFields magic)) (by decide) hitems.2 hsmall
    (by omega)

end CircuitQir.Bitstream
