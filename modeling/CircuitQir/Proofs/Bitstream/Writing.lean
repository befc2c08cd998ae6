import CircuitQir.Bitstream.Writer
import CircuitQir.Proofs.Bitstream.RoundTrip
/-!
# Lengths filled in afterwards

A writer that is told of a block piece by piece puts zero in the place of the length and comes back
to it. A packer only ever adds to its bytes, and on a word boundary nothing is waiting, so what it
makes of the body does not depend on the word ahead of it (`foldl_write_behind`). So filling in the
length afterwards gives the stream in which every length is known beforehand
(`Writer.item_eq_put`), which is read back as the forest it was written from (`decode_write`).
-/

namespace CircuitQir.Bitstream

namespace Packer

/-- A packer with more bytes in front of its own. -/
def behind (front : Array UInt8) (p : Packer) : Packer := ⟨front ++ p.bytes, p.pending, p.count⟩

variable {p : Packer} {taken : List Bool}

theorem emit_behind (front : Array UInt8) (p : Packer) (value width : Nat) :
    (p.behind front).emit value width = (p.emit value width).behind front := by
  have hbytes : ∀ word, front ++ p.bytes ++ wordBytes word = front ++ (p.bytes ++ wordBytes word) :=
    fun word => Array.ext' (by simp)
  unfold emit
  by_cases hfull : 32 ≤ p.count + width
  · rw [if_pos hfull, if_pos (show 32 ≤ (p.behind front).count + width from hfull)]
    simp only [behind, hbytes]
  · rw [if_neg hfull, if_neg (show ¬ 32 ≤ (p.behind front).count + width from hfull)]
    rfl

theorem write_behind (front : Array UInt8) (p : Packer) (f : Field) :
    (p.behind front).write f = (p.write f).behind front := by
  cases f with
  | number value width => exact emit_behind front p value width
  | align =>
    show (p.behind front).align = p.align.behind front
    unfold align
    by_cases hcount : p.count = 0
    · rw [if_pos hcount, if_pos (show (p.behind front).count = 0 from hcount)]
    · rw [if_neg hcount, if_neg (show ¬ (p.behind front).count = 0 from hcount)]
      exact emit_behind front p 0 (32 - p.count)

/-- A packer adds to its bytes without looking at them. -/
theorem foldl_write_behind (front : Array UInt8) (fs : List Field) (p : Packer) :
    fs.foldl write (p.behind front) = (fs.foldl write p).behind front := by
  induction fs generalizing p with
  | nil => rfl
  | cons f fs ih => rw [List.foldl_cons, List.foldl_cons, write_behind, ih]

/-- On a word boundary nothing is waiting. -/
theorem Holds.eq_behind_empty (h : p.Holds taken) (hword : taken.length % 32 = 0) :
    p = empty.behind p.bytes := by
  have hcount := h.count_eq
  have hpending := h.pending_lt
  rw [hword] at hcount
  rw [hcount] at hpending
  obtain ⟨bytes, pending, count⟩ := p
  obtain rfl : count = 0 := hcount
  obtain rfl : pending = 0 := by simpa using hpending
  simp [behind, empty]

/-- A word that starts on a boundary goes to the bytes as it is. -/
theorem write_word (bytes : Array UInt8) {value : Nat} (hvalue : value < 2 ^ 32) :
    (empty.behind bytes).write (.number value 32) =
      empty.behind (bytes ++ wordBytes value) := by
  have hlarge : value / 2 ^ 32 = 0 := Nat.div_eq_of_lt hvalue
  simp [write, emit, behind, empty, hlarge]

/-- Four bytes for each word. -/
theorem Holds.size_eq (h : p.Holds taken) (hword : taken.length % 32 = 0) :
    p.bytes.size = taken.length / 32 * 4 := by
  have hlength := congrArg List.length h.bits
  have hcount := h.count_eq
  rw [List.length_append, Bits.length_ofBytes, Bits.length_ofNat, Array.length_toList] at hlength
  omega

end Packer

/-- A stream has whole words. -/
theorem length_pack_mod {fs : List Field} (hfs : ∀ f ∈ fs, f.Valid) :
    (pack fs).length % 4 = 0 :=
  (Packer.holds_empty.foldl_write hfs).align.whole

namespace Writer

open Packer

@[simp]
theorem put_width (w : Writer) (fs : List Field) : (w.put fs).width = w.width := rfl

theorem put_append (w : Writer) (fs gs : List Field) : w.put (fs ++ gs) = (w.put fs).put gs := by
  simp [put]

/-- Replacing bytes keeps those before and behind them. -/
theorem overwritten_append (front back : Array UInt8) {old new : List UInt8}
    (hlength : old.length = new.length) :
    overwritten (front ++ old ++ back) front.size new = front ++ new ++ back := by
  have hdrop : (front ++ old ++ back).toList.drop (front.size + new.length) = back.toList := by
    simp [← hlength, ← Array.length_toList]
  have htake : (front ++ old ++ back).toList.take front.size = front.toList := by
    simp [← Array.length_toList]
  rw [overwritten, hdrop, htake]
  simp

variable {w : Writer} {taken : List Bool}

theorem fields_block_eq (outer id width : Nat) (items : List Item) :
    Item.fields outer (.block id width items) = blockStart outer id width ++
      (.number (Item.lengthWord (Item.body width items)) 32 :: Item.body width items) := by
  simp [Item.fields, blockStart, Item.body]

/-- The length of a block stands on a word boundary. -/
theorem extent_blockStart_mod (position outer id width : Nat) :
    Field.extent position (blockStart outer id width) % 32 = 0 :=
  Field.extent_align_mod position
    (.number 1 outer :: (VbrWidth.eight.fields id ++ VbrWidth.four.fields width))

/-- Where a block has been entered, a zero stands in the place of its length. -/
theorem enterBlock_eq (hheld : w.packer.Holds taken) {id width : Nat}
    (hvalid : ∀ f ∈ blockStart w.width id width, f.Valid) :
    ∃ front : Array UInt8,
      (w.put (blockStart w.width id width)).packer = empty.behind front ∧
      w.enterBlock id width = ⟨empty.behind (front ++ wordBytes 0), width,
        ⟨w.width, front.size⟩ :: w.scopes⟩ ∧
      ∃ taken', (w.enterBlock id width).packer.Holds taken' := by
  have hstart : (w.put (blockStart w.width id width)).packer.Holds
      (taken ++ Field.bits taken.length (blockStart w.width id width)) :=
    hheld.foldl_write hvalid
  have hword :
      (taken ++ Field.bits taken.length (blockStart w.width id width)).length % 32 = 0 := by
    rw [List.length_append, ← Field.extent_eq]
    exact extent_blockStart_mod _ _ _ _
  obtain ⟨front, hfront⟩ : ∃ front, (w.put (blockStart w.width id width)).packer =
      empty.behind front := ⟨_, hstart.eq_behind_empty hword⟩
  have hsize : (w.put (blockStart w.width id width)).packer.bytes.size = front.size := by
    rw [hfront]
    simp [behind, empty]
  have hzero : ((w.put (blockStart w.width id width)).put [.number 0 32]).packer =
      empty.behind (front ++ wordBytes 0) := by
    show (w.put (blockStart w.width id width)).packer.write (.number 0 32) = _
    rw [hfront, write_word front (by decide)]
  refine ⟨front, hfront, ?_, _, hstart.write (f := .number 0 32) ⟨by decide, by decide⟩⟩
  unfold enterBlock
  dsimp only
  rw [hzero, hsize]
  rfl

/-! ### Bodies -/

/-- The body of a block by itself. -/
def packedBody (width : Nat) (items : List Item) : Packer :=
  (Item.body width items).foldl Packer.write empty

section

variable {width : Nat} {items : List Item}

/-- The body is the same whatever is ahead of it. -/
theorem foldl_write_body (front : Array UInt8) :
    (Item.body width items).foldl Packer.write (empty.behind front) =
      (packedBody width items).behind front :=
  foldl_write_behind _ _ _

theorem size_packedBody (hfits : ∀ f ∈ Item.body width items, f.Valid) :
    (packedBody width items).bytes.size = Field.extent 0 (Item.body width items) / 32 * 4 := by
  have hbody : (packedBody width items).Holds (Field.bits 0 (Item.body width items)) :=
    holds_empty.foldl_write hfits
  have hextent : (Field.bits 0 (Item.body width items)).length =
      Field.extent 0 (Item.body width items) := by
    rw [Field.extent_eq, Nat.zero_add]
  rw [hbody.size_eq (by rw [hextent]; exact Item.extent_body_mod), hextent]

/-- The words behind the one for the length are as many as a length says. -/
theorem words_packedBody (front : Array UInt8) (hfits : ∀ f ∈ Item.body width items, f.Valid) :
    min ((((packedBody width items).behind (front ++ wordBytes 0)).bytes.size - front.size - 4) / 4)
      (2 ^ 32 - 1) = Item.lengthWord (Item.body width items) := by
  have hword : (front ++ wordBytes 0).size = front.size + 4 := by simp [wordBytes]
  have hmod : Field.extent 0 (Item.body width items) % 32 = 0 := Item.extent_body_mod
  rw [Item.lengthWord, behind, Array.size_append, hword, size_packedBody hfits]
  omega

end

/-- The length of a body that is written between the start and the end of its block comes to stand
ahead of it. -/
theorem exitBlock_enterBlock (hheld : w.packer.Holds taken) {id width depth : Nat}
    {items : List Item} {codes : List Nat} (hw : 2 ≤ w.width ∧ w.width ≤ 32)
    (hvalid : Item.Valid depth w.width codes (.block id width items)) :
    ((w.enterBlock id width).put (Item.listFields width items)).exitBlock =
      w.put (Item.fields w.width (.block id width items)) := by
  have hfits := Item.valid_fields hw _ hvalid
  rw [fields_block_eq] at hfits ⊢
  obtain ⟨front, hfront, henter, -⟩ := enterBlock_eq hheld
    fun f hf => hfits f (List.mem_append_left _ hf)
  have hbody : ∀ f ∈ Item.body width items, f.Valid := fun f hf => hfits f (by simp [hf])
  have hwidth : ((w.enterBlock id width).put (Item.listFields width items)).width = width := by
    rw [put_width, henter]
  have hend : ((w.enterBlock id width).put (Item.listFields width items)).put
      (Item.endBlock width) = ⟨(packedBody width items).behind (front ++ wordBytes 0), width,
        ⟨w.width, front.size⟩ :: w.scopes⟩ := by
    rw [← put_append, henter, ← foldl_write_body]
    rfl
  have hlength : (w.put (blockStart w.width id width)).put
      (.number (Item.lengthWord (Item.body width items)) 32 :: Item.body width items) =
        ⟨(packedBody width items).behind (front ++
          wordBytes (Item.lengthWord (Item.body width items))), w.width, w.scopes⟩ := by
    rw [← foldl_write_body, ← write_word front (Item.lengthWord_lt _), ← hfront]
    rfl
  have hfilled : overwritten (front ++ wordBytes 0 ++ (packedBody width items).bytes) front.size
      (wordBytes (Item.lengthWord (Item.body width items))) =
        front ++ wordBytes (Item.lengthWord (Item.body width items)) ++
          (packedBody width items).bytes :=
    overwritten_append _ _ rfl
  unfold exitBlock
  rw [hwidth, hend, put_append, hlength]
  dsimp only
  rw [words_packedBody front hbody]
  exact congrArg (fun bytes => Writer.mk ⟨bytes, _, _⟩ w.width w.scopes) hfilled

/-! ### Items -/

mutual

/-- Telling of an item comes to writing its fields. -/
theorem item_eq_put : ∀ (i : Item) {w : Writer} {taken : List Bool} {depth : Nat}
    {codes : List Nat}, w.packer.Holds taken → 2 ≤ w.width ∧ w.width ≤ 32 →
    Item.Valid depth w.width codes i → w.item i = w.put (Item.fields w.width i)
  | .record _ _, _, _, _, _, _, _, _ => rfl
  | .blobAbbreviation _, _, _, _, _, _, _, _ => rfl
  | .blob _, _, _, _, _, _, _, _ => rfl
  | .block id width inner, w, taken, depth, codes, hheld, hw, hvalid => by
    have hinner := hvalid
    simp only [Item.Valid] at hinner
    obtain ⟨-, -, hwidth, hinner⟩ := hinner
    have hfits := Item.valid_fields hw _ hvalid
    rw [fields_block_eq] at hfits
    obtain ⟨front, -, -, taken', hentered⟩ := enterBlock_eq hheld
      fun f hf => hfits f (List.mem_append_left _ hf)
    rw [item, items_eq_put inner hentered hwidth hinner]
    exact exitBlock_enterBlock hheld hw hvalid

/-- Telling of items one after the other comes to writing their fields. -/
theorem items_eq_put : ∀ (is : List Item) {w : Writer} {taken : List Bool} {depth : Nat}
    {codes : List Nat}, w.packer.Holds taken → 2 ≤ w.width ∧ w.width ≤ 32 →
    Item.ListValid depth w.width codes is → w.items is = w.put (Item.listFields w.width is)
  | [], _, _, _, _, _, _, _ => rfl
  | i :: is, w, taken, depth, codes, hheld, hw, hvalid => by
    simp only [Item.ListValid] at hvalid
    have hi := item_eq_put i hheld hw hvalid.1
    have hnext := hheld.foldl_write (Item.valid_fields hw i hvalid.1)
    have his := items_eq_put is (w := w.put (Item.fields w.width i)) hnext hw hvalid.2
    rw [items, hi, his, Item.listFields, put_append, put_width]

end

end Writer

variable {magic : List UInt8} {items : List Item}

/-- It makes no difference when the lengths of blocks are filled in. -/
theorem write_eq_encode (hforest : Item.Forest items) : write magic items = encode magic items := by
  have hstart : (Writer.start magic).packer.Holds (Field.bits 0 (magicFields magic)) :=
    Packer.holds_empty.foldl_write (valid_magicFields magic)
  have hwidth : 2 ≤ topLevelWidth ∧ topLevelWidth ≤ 32 := by decide
  rw [write, Writer.items_eq_put items hstart hwidth hforest.2, encode, pack, List.foldl_append]
  rfl

/-- A forest of blocks that is written call by call takes whole words and is read back as it was
written, if its numbers have 64 bits and the body of every block fewer than `2 ^ 32` words. -/
theorem decode_write (hmagic : magic.length = 4) (hforest : Item.Forest items)
    (hsmall : Item.ListSmall items) (hbounded : Item.ListBounded items) :
    write magic items = encode magic items ∧ (write magic items).length % 4 = 0 ∧
      decode magic (write magic items) = .ok (Item.forest items) := by
  have hfits : Item.ListFits items :=
    Item.listFits_of_blocks hforest.1 hforest.2 hsmall hbounded
  rw [write_eq_encode hforest]
  exact ⟨rfl, length_pack_mod (valid_stream magic hforest), decode_encode hmagic hforest hfits⟩

/-- Blocks inside each other, with ids of the greatest width around the innermost. -/
def nested : Nat → Item
  | 0 => .block 0xffffffff 2 [.record 0xffffffff [0xffffffffffffffff, 0]]
  | n + 1 => .block 1 32 [nested n, .record 0 []]

/-- As many blocks inside each other as a reader follows, and a block with blobs. -/
def deepForest : List Item :=
  [nested 32, .block 23 3 [.blobAbbreviation 1, .blob [0, 255], .block 8 4 [], .blob []]]

theorem decode_write_deepForest :
    write [0x42, 0x43, 0xc0, 0xde] deepForest = encode [0x42, 0x43, 0xc0, 0xde] deepForest ∧
      (write [0x42, 0x43, 0xc0, 0xde] deepForest).length % 4 = 0 ∧
      decode [0x42, 0x43, 0xc0, 0xde] (write [0x42, 0x43, 0xc0, 0xde] deepForest) =
        .ok (Item.forest deepForest) :=
  decode_write rfl
    ⟨by simp [deepForest, nested], by
      simp [deepForest, nested, Item.ListValid, Item.Valid, Item.defined, announcingBlock,
        maxDepth]⟩
    (by simp [deepForest, nested, Item.ListSmall, Item.Small])
    (Item.listBounded_of_bits deepForest topLevelWidth 32 (by decide +kernel))

end CircuitQir.Bitstream
