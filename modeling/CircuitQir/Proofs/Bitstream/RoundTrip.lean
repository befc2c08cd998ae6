import CircuitQir.Proofs.Bitstream.Size
import CircuitQir.Proofs.Bitstream.Walk
/-!
# A stream gives back the tree it was written from

A stream of valid blocks is decoded to what the blocks mean (`decode_encode`) if everything in it
fits, and is refused if something does not (`decode_encode_error`). Nothing in between is
possible.
-/

namespace CircuitQir.Bitstream

open Reader

namespace Decoder

/-- Outside of all blocks a run that sees a word reads the start of a block. -/
theorem run_outside (blocks : List Block) (fs : List Field) (position : Nat) (rest : List Bool)
    (hword : 32 ≤ (Field.bits position (.number 1 topLevelWidth :: fs) ++ rest).length) :
    (Decoder.mk [] [] blocks).run
        ⟨position, Field.bits position (.number 1 topLevelWidth :: fs) ++ rest⟩ =
      runAfter (Decoder.mk [] [] blocks).enter
        ⟨position + topLevelWidth, Field.bits (position + topLevelWidth) fs ++ rest⟩ := by
  refine run_eq_runAfter ?_
  have hid : Reads (number 2) 1 [.number 1 topLevelWidth] := reads_number (by decide)
  have houtside : (Decoder.mk [] [] blocks).outsideStep
      ⟨position, Field.bits position (.number 1 topLevelWidth :: fs) ++ rest⟩ =
      (Decoder.mk [] [] blocks).enter
        ⟨position + topLevelWidth, Field.bits (position + topLevelWidth) fs ++ rest⟩ :=
    hid.bind_apply (f := fun id => if id = 1 then (Decoder.mk [] [] blocks).enter
      else malformed position (.outsideBlock id)) fs position rest
  show (if (Field.bits position (.number 1 topLevelWidth :: fs) ++ rest).length < 32 then _
    else (Decoder.mk [] [] blocks).outsideStep >>= fun d => pure (Progress.more d) :
      Reader Progress) _ = _
  rw [if_neg (Nat.not_lt.mpr hword)]
  show ((Decoder.mk [] [] blocks).outsideStep _ >>=
    fun (d, c) => (pure (Progress.more d) : Reader Progress) c) = _
  rw [houtside]
  rfl

/-- Where less than a word is left, the stream ends. -/
theorem run_end (blocks : List Block) (position : Nat) {rest : List Bool}
    (hrest : rest.length < 32) :
    (Decoder.mk [] [] blocks).run ⟨position, rest⟩ = .ok blocks.reverse := by
  have hstep : (Decoder.mk [] [] blocks).step ⟨position, rest⟩ =
      .ok (.done blocks.reverse, ⟨position, rest⟩) := by
    show (if rest.length < 32 then pure (.done blocks.reverse) else _ : Reader Progress) _ = _
    rw [if_pos hrest]
    rfl
  exact run_of_step_done hstep

/-- The length of a block stands in a word of its own. -/
theorem length_bits_blockFields (position id width : Nat) (items : List Item) :
    32 ≤ (Field.bits position (Item.blockFields id width items)).length := by
  have h := Field.extent_eq (Field.extent position
    (VbrWidth.eight.fields id ++ VbrWidth.four.fields width ++ [.align]))
    (.number (Item.lengthWord (Item.body width items)) 32 :: Item.body width items)
  have hsplit : Item.blockFields id width items =
      (VbrWidth.eight.fields id ++ VbrWidth.four.fields width ++ [.align]) ++
        (.number (Item.lengthWord (Item.body width items)) 32 :: Item.body width items) := by
    simp [Item.blockFields, BlockHeader.fields]
  rw [hsplit, Field.bits_append, List.length_append, Field.bits, List.length_append,
    Field.length_bitsAt]
  simp only [Field.after]
  omega

/-- Outside of all blocks a run reads a block as a whole if it fits, and else fails. -/
theorem run_block {id width : Nat} {items : List Item} (blocks : List Block)
    (hzero : id ≠ announcingBlock) (hwidth : 2 ≤ width ∧ width ≤ 32)
    (hitems : Item.ListValid 1 width [] items) (position : Nat) (rest : List Bool) :
    (Item.Fits (.block id width items) →
      (Decoder.mk [] [] blocks).run
        ⟨position, Field.bits position (Item.fields topLevelWidth (.block id width items)) ++
          rest⟩ =
        (Decoder.mk [] [] (⟨id, Item.listEntries [] items⟩ :: blocks)).run
          ⟨Field.extent position (Item.fields topLevelWidth (.block id width items)), rest⟩) ∧
    (¬ Item.Fits (.block id width items) → ∃ e,
      (Decoder.mk [] [] blocks).run
        ⟨position, Field.bits position (Item.fields topLevelWidth (.block id width items)) ++
          rest⟩ = .error e) := by
  have hdepth : ([] : List OpenBlock).length ≤ maxDepth := Nat.zero_le _
  have hwalk : WalksBody [] blocks id width items := by
    rintro b rfl rfl habbr
    exact walks_listFields items hzero hwidth.1 habbr hitems
  have hroom := length_bits_blockFields (position + topLevelWidth) id width items
  rw [Item.fields_block, run_outside]
  · exact ⟨fun h => runAfter_enter_eq hzero hdepth hwidth hwalk h _ _,
      fun h => runAfter_enter_error hzero hdepth hwidth hwalk h _ _⟩
  · rw [List.length_append, Field.bits, List.length_append]
    simp only [Field.after]
    omega

/-- Outside of all blocks a run reads one block after the other. -/
theorem run_forest : ∀ (items : List Item) (blocks : List Block) (position : Nat)
    {rest : List Bool}, Item.Forest items → rest.length < 32 →
    (Item.ListFits items →
      (Decoder.mk [] [] blocks).run
        ⟨position, Field.bits position (Item.listFields topLevelWidth items) ++ rest⟩ =
          .ok (blocks.reverse ++ Item.forest items)) ∧
    (¬ Item.ListFits items → ∃ e,
      (Decoder.mk [] [] blocks).run
        ⟨position, Field.bits position (Item.listFields topLevelWidth items) ++ rest⟩ = .error e)
  | [], blocks, position, _, _, hrest => by
    refine ⟨fun _ => ?_, fun h => absurd trivial h⟩
    rw [Item.forest, List.filterMap_nil, List.append_nil]
    exact run_end blocks position hrest
  | i :: is, blocks, position, rest, ⟨hblocks, hvalid⟩, hrest => by
    obtain ⟨id, width, inner, rfl⟩ := hblocks i (by simp)
    simp only [Item.ListValid, Item.Valid] at hvalid
    obtain ⟨⟨hzero, -, hwidth, hinner⟩, his⟩ := hvalid
    simp only [Item.defined, List.append_nil] at his
    obtain ⟨hfit, hmisfit⟩ := run_block blocks hzero hwidth hinner position
      (Field.bits (Field.extent position (Item.fields topLevelWidth (.block id width inner)))
        (Item.listFields topLevelWidth is) ++ rest)
    have hnext := run_forest is (⟨id, Item.listEntries [] inner⟩ :: blocks)
      (Field.extent position (Item.fields topLevelWidth (.block id width inner)))
      ⟨fun j hj => hblocks j (by simp [hj]), his⟩ hrest
    rw [Item.listFields, Field.bits_append, List.append_assoc]
    constructor
    · rintro ⟨hi, his⟩
      rw [hfit hi]
      refine (hnext.1 his).trans ?_
      simp [Item.forest, Item.block?]
    · intro hmis
      by_cases hi : Item.Fits (.block id width inner)
      · rw [hfit hi]
        exact hnext.2 fun his => hmis ⟨hi, his⟩
      · exact hmisfit hi

end Decoder

variable {magic : List UInt8} {items : List Item}

theorem bits_magicFields (position : Nat) (magic : List UInt8) :
    Field.bits position (magicFields magic) = Bits.ofBytes magic := by
  induction magic generalizing position with
  | nil => rfl
  | cons b magic ih =>
    show Bits.ofNat 8 b.toNat ++ Field.bits (position + 8) (magicFields magic) = _
    rw [ih]
    rfl

/-- Behind the magic number a stream has the bits of its items and no others. -/
theorem encode_eq_append (hmagic : magic.length = 4) (hitems : Item.Forest items) :
    ∃ back, encode magic items = magic ++ back ∧
      Bits.ofBytes back = Field.bits 32 (Item.listFields topLevelWidth items) := by
  have hbits := ofBytes_pack (valid_stream magic hitems)
  have hstart : Field.extent 0 (magicFields magic) = 32 := by
    rw [Field.extent_eq, bits_magicFields, Bits.length_ofBytes, hmagic]
  have hpadding : padding (Field.extent 32 (Item.listFields topLevelWidth items)) = 0 := by
    have hmod := Item.extent_blocks_mod topLevelWidth items hitems.1 (by decide : 32 % 32 = 0)
    unfold padding
    omega
  rw [Field.bits_append, bits_magicFields, Field.extent_append, hstart, hpadding,
    List.replicate_zero, List.append_nil] at hbits
  exact Bits.ofBytes_eq_append hbits

/-- Decoding a written stream is a run over the fields of its items. -/
theorem decode_encode_eq (hmagic : magic.length = 4) (hitems : Item.Forest items) :
    decode magic (encode magic items) =
      Decoder.empty.run ⟨32, Field.bits 32 (Item.listFields topLevelWidth items) ++ []⟩ := by
  obtain ⟨back, hback, hbits⟩ := encode_eq_append hmagic hitems
  unfold decode
  rw [hback, List.take_left' hmagic, List.drop_left' hmagic, if_pos rfl, hbits, List.append_nil]

/-- Items that fit are read back as what they mean. -/
theorem decode_encode (hmagic : magic.length = 4) (hitems : Item.Forest items)
    (hfits : Item.ListFits items) :
    decode magic (encode magic items) = .ok (Item.forest items) := by
  rw [decode_encode_eq hmagic hitems]
  exact (Decoder.run_forest items [] 32 hitems (by decide)).1 hfits

/-- Items that do not fit are not read back at all. -/
theorem decode_encode_error (hmagic : magic.length = 4) (hitems : Item.Forest items)
    (hfits : ¬ Item.ListFits items) : ∃ e, decode magic (encode magic items) = .error e := by
  rw [decode_encode_eq hmagic hitems]
  exact (Decoder.run_forest items [] 32 hitems (by decide)).2 hfits

end CircuitQir.Bitstream
