import CircuitQir.Proofs.Bitstream.Alignment
import CircuitQir.Proofs.Bitstream.Blobs
/-!
# Walking through the blocks of a stream

The decoder is followed step by step over the fields of a valid tree. `Walks` says what a run does
at the fields of items inside a block: the open block takes in the entries that the items mean,
unless something does not fit, and then the run fails. `walks_fields` is the step for one item and
`walks_listFields` the walk over all items of a block.
-/

namespace CircuitQir.Bitstream

open Reader

/-! ## Runs -/

namespace Decoder

theorem run_of_step {d d' : Decoder} {c c' : Cursor} (h : d.step c = .ok (.more d', c')) :
    d.run c = d'.run c' := by
  rw [run]
  split
  · rename_i he
    rw [he] at h
    cases h
  · rename_i he
    rw [he] at h
    cases h
  · rename_i he
    rw [he] at h
    cases h
    rfl

theorem run_of_step_done {d : Decoder} {c c' : Cursor} {blocks : List Block}
    (h : d.step c = .ok (.done blocks, c')) : d.run c = .ok blocks := by
  rw [run]
  split
  · rename_i he
    rw [he] at h
    cases h
  · rename_i he
    rw [he] at h
    cases h
    rfl
  · rename_i he
    rw [he] at h
    cases h

theorem run_of_step_error {d : Decoder} {c : Cursor} {e : Error} (h : d.step c = .error e) :
    d.run c = .error e := by
  rw [run]
  split
  · rename_i he
    rw [he] at h
    cases h
    rfl
  · rename_i he
    rw [he] at h
    cases h
  · rename_i he
    rw [he] at h
    cases h

variable {announced : List (Nat × Abbreviation)} {b : OpenBlock} {outer : List OpenBlock}
  {blocks : List Block}

/-- What comes of reading a decoder and running it from there. -/
def runAfter (r : Reader Decoder) (c : Cursor) : Except Error (List Block) :=
  match r c with
  | .ok (d, c) => d.run c
  | .error e => .error e

theorem runAfter_ok {r : Reader Decoder} {d : Decoder} {c c' : Cursor} (h : r c = .ok (d, c')) :
    runAfter r c = d.run c' := by
  rw [runAfter, h]

theorem runAfter_error {r : Reader Decoder} {c : Cursor} {e : Error} (h : r c = .error e) :
    runAfter r c = .error e := by
  rw [runAfter, h]

theorem run_eq_runAfter {d : Decoder} {r : Reader Decoder} {c c' : Cursor}
    (h : d.step c = (r >>= fun d => pure (Progress.more d) : Reader Progress) c') :
    d.run c = runAfter r c' := by
  cases hr : r c' with
  | error e =>
    rw [bind_apply_error hr] at h
    rw [run_of_step_error h, runAfter_error hr]
  | ok p =>
    obtain ⟨d', c''⟩ := p
    rw [bind_apply_ok hr] at h
    rw [run_of_step h, runAfter_ok hr]

/-- Inside a block a run reads an abbreviation id, and then what the id announces. -/
theorem run_inside {id : Nat} (hid : id < 2 ^ b.width) (fs : List Field) (position : Nat)
    (rest : List Bool) :
    (Decoder.mk announced (b :: outer) blocks).run
        ⟨position, Field.bits position (.number id b.width :: fs) ++ rest⟩ =
      runAfter ((Decoder.mk announced (b :: outer) blocks).entry b outer position id)
        ⟨position + b.width, Field.bits (position + b.width) fs ++ rest⟩ := by
  refine run_eq_runAfter ?_
  have hinside : (Decoder.mk announced (b :: outer) blocks).insideStep b outer
      ⟨position, Field.bits position (.number id b.width :: fs) ++ rest⟩ =
      (Decoder.mk announced (b :: outer) blocks).entry b outer position id
        ⟨position + b.width, Field.bits (position + b.width) fs ++ rest⟩ :=
    (reads_number hid).bind_apply fs position rest
  show ((Decoder.mk announced (b :: outer) blocks).insideStep b outer _ >>=
    fun (d, c) => (pure (Progress.more d) : Reader Progress) c) = _
  rw [hinside]
  rfl

end Decoder

/-! ## Items inside a block -/

/-- A block that has taken in some items, behind definitions with the given codes. -/
def OpenBlock.extend (b : OpenBlock) (codes : List Nat) (items : List Item) : OpenBlock :=
  { b with
    abbreviations := b.abbreviations ++ (items.flatMap Item.defined).map blobLayout
    entries := (Item.listEntries codes items).reverse ++ b.entries }

theorem OpenBlock.extend_nil (b : OpenBlock) (codes : List Nat) : b.extend codes [] = b := by
  simp [extend, Item.listEntries]

theorem OpenBlock.extend_cons (b : OpenBlock) (codes : List Nat) (i : Item) (is : List Item) :
    b.extend codes (i :: is) = (b.extend codes [i]).extend (codes ++ i.defined) is := by
  simp [extend, Item.listEntries]

/-- The decoder inside a block, with no abbreviations announced. -/
abbrev Decoder.inside (b : OpenBlock) (outer : List OpenBlock) (blocks : List Block) : Decoder :=
  ⟨[], b :: outer, blocks⟩

namespace Decoder

variable {b : OpenBlock} {outer : List OpenBlock} {blocks : List Block} {codes : List Nat}

/-- What a run does at some fields: it goes on with a block extended by items where `fits` holds,
and fails where it does not. -/
structure Walks (b : OpenBlock) (outer : List OpenBlock) (blocks : List Block)
    (codes : List Nat) (items : List Item) (fs : List Field) (fits : Prop) : Prop where
  run_eq : fits → ∀ position rest,
    (inside b outer blocks).run ⟨position, Field.bits position fs ++ rest⟩ =
      (inside (b.extend codes items) outer blocks).run ⟨Field.extent position fs, rest⟩
  run_error : ¬ fits → ∀ position rest,
    ∃ e, (inside b outer blocks).run ⟨position, Field.bits position fs ++ rest⟩ = .error e

theorem walks_record (hb : b.id ≠ announcingBlock) (hw : 2 ≤ b.width) (code : Nat)
    (ops : List Nat) :
    Walks b outer blocks codes [.record code ops] (Item.fields b.width (.record code ops))
      (Item.Fits (.record code ops)) := by
  have hid : 3 < 2 ^ b.width := by
    have : 2 ^ 2 ≤ 2 ^ b.width := Nat.pow_le_pow_right (by decide) hw
    omega
  have hpush : (inside b outer blocks).record b outer ⟨code, ops, none⟩ =
      inside (b.extend codes [.record code ops]) outer blocks := by
    have htarget : ¬ (b.id = announcingBlock ∧ code = 1) := fun h => hb h.1
    simp [record, htarget, OpenBlock.extend, OpenBlock.push, Item.listEntries, Item.entries,
      Item.defined]
  constructor
  · rintro ⟨hc, hl, ho⟩ position rest
    have hread := Record.reads_record hc hl ho
    rw [← hpush, Item.fields, List.append_assoc, run_inside hid]
    refine runAfter_ok ?_
    exact bind_apply_ok (f := fun r => pure ((inside b outer blocks).record b outer r))
      (hread (position + b.width) rest)
  · intro hfits position rest
    obtain ⟨e, he⟩ := Record.refuses_read (show ¬ (_ ∧ _ ∧ _) from hfits) (position + b.width) rest
    rw [Item.fields, List.append_assoc, run_inside hid]
    exact ⟨e, runAfter_error
      (bind_apply_error (f := fun r => pure ((inside b outer blocks).record b outer r)) he)⟩

theorem walks_blobAbbreviation (hb : b.id ≠ announcingBlock) (hw : 2 ≤ b.width) (code : Nat) :
    Walks b outer blocks codes [.blobAbbreviation code]
      (Item.fields b.width (.blobAbbreviation code)) (Item.Fits (.blobAbbreviation code)) := by
  have hid : 2 < 2 ^ b.width := by
    have : 2 ^ 2 ≤ 2 ^ b.width := Nat.pow_le_pow_right (by decide) hw
    omega
  have hfields : Item.fields b.width (.blobAbbreviation code) =
      .number 2 b.width :: Abbreviation.blobFields code := by
    simp [Item.fields, Abbreviation.blobFields]
  rw [hfields]
  constructor
  · intro hfits position rest
    rw [run_inside hid]
    refine runAfter_ok ?_
    refine (bind_apply_ok (Abbreviation.reads_blobLayout hfits (position + b.width) rest)).trans ?_
    have hdefine : (inside b outer blocks).define b outer position (blobLayout code) =
        .ok (inside (b.extend codes [.blobAbbreviation code]) outer blocks) := by
      simp [define, hb, OpenBlock.extend, Item.listEntries, Item.entries, Item.defined]
    rw [hdefine]
    rfl
  · intro hfits position rest
    obtain ⟨e, he⟩ := Abbreviation.refuses_blobLayout hfits (position + b.width) rest
    rw [run_inside hid]
    exact ⟨e, runAfter_error (bind_apply_error he)⟩

theorem walks_blob (hw : 3 ≤ b.width) (hcodes : codes ≠ [])
    (habbr : b.abbreviations = codes.map blobLayout) (bytes : List UInt8) :
    Walks b outer blocks codes [.blob bytes] (Item.fields b.width (.blob bytes))
      (Item.Fits (.blob bytes)) := by
  have hid : 4 < 2 ^ b.width := by
    have : 2 ^ 3 ≤ 2 ^ b.width := Nat.pow_le_pow_right (by decide) hw
    omega
  obtain ⟨code, codes, rfl⟩ := List.exists_cons_of_ne_nil hcodes
  have hfields : Item.fields b.width (.blob bytes) =
      .number 4 b.width :: Record.blobFields bytes := by
    simp [Item.fields, Record.blobFields]
  have hentry : ∀ position, (inside b outer blocks).entry b outer position 4 =
      (Record.readAbbreviated (blobLayout code) >>= fun r =>
        pure { inside b outer blocks with openBlocks := b.push (.record r) :: outer }) := by
    intro position
    have h0 : b.abbreviations[0]? = some (blobLayout code) := by simp [habbr]
    simp only [entry, h0]
  rw [hfields]
  constructor
  · intro hfits position rest
    rw [run_inside hid, hentry]
    refine runAfter_ok ?_
    refine (bind_apply_ok (Record.reads_readAbbreviated code hfits _ rest)).trans ?_
    simp only [OpenBlock.extend, OpenBlock.push, Item.listEntries, Item.entries, Item.defined,
      List.headD_cons, List.flatMap_cons, List.flatMap_nil, List.append_nil, List.map_nil]
    rfl
  · intro hfits position rest
    obtain ⟨e, he⟩ := Record.refuses_readAbbreviated code hfits (position + b.width) rest
    rw [run_inside hid, hentry]
    exact ⟨e, runAfter_error (bind_apply_error he)⟩

end Decoder

/-! ## Blocks -/

/-- A header is read if as many words as it announces are there. -/
theorem BlockHeader.read_eq {depth id width words : Nat} (hdepth : depth ≤ maxDepth)
    (hid : id < 2 ^ 64) (hwidth : 2 ≤ width ∧ width ≤ 32) (hwords : words < 2 ^ 32)
    (fs : List Field) (position : Nat) (rest : List Bool) :
    let start := Field.extent position (fields id width words)
    BlockHeader.read depth ⟨position, Field.bits position (fields id width words ++ fs) ++ rest⟩ =
      if (Field.bits start fs ++ rest).length < words * 32 then .error (.endOfInput start)
      else .ok (⟨id, width, by omega, start + words * 32⟩,
        ⟨start, Field.bits start fs ++ rest⟩) := by
  intro start
  have hwide : width < 2 ^ 64 := by omega
  have hfields : fields id width words ++ fs = VbrWidth.eight.fields id ++
      (VbrWidth.four.fields width ++ ([.align] ++ ([.number words 32] ++ fs))) := by
    simp [fields]
  rw [hfields]
  show (if maxDepth < depth then _ else _ : Reader BlockHeader) _ = _
  rw [if_neg (Nat.not_lt.mpr hdepth)]
  refine ((VbrWidth.eight.reads_vbr hid).bind_apply _ _ rest).trans ?_
  refine ((VbrWidth.four.reads_vbr hwide).bind_apply _ _ rest).trans ?_
  rw [dif_pos hwidth]
  refine (reads_align.bind_apply _ _ rest).trans ?_
  refine ((reads_number hwords).bind_apply _ _ rest).trans ?_
  have hstart : Field.extent (Field.extent (Field.extent (Field.extent position
      (VbrWidth.eight.fields id)) (VbrWidth.four.fields width)) [.align]) [.number words 32] =
      start := by
    simp only [start, fields, ← Field.extent_append, List.append_assoc, List.cons_append,
      List.nil_append]
  rw [hstart]
  show (if (Field.bits start fs ++ rest).length < words * 32 then
    throw (.endOfInput start) else _ : Reader BlockHeader) _ = _
  split <;> rfl

/-- The end of a block is read if the block ends where its header says. -/
theorem OpenBlock.readEnd_eq (b : OpenBlock) (start position : Nat) (rest : List Bool) :
    b.readEnd start ⟨position, Field.bits position [.align] ++ rest⟩ =
      if position + padding position = b.finish then
        .ok ((), ⟨position + padding position, rest⟩)
      else .error (.malformed start (.blockLength b.id)) := by
  refine (reads_align.bind_apply [] position rest).trans ?_
  show (if position + padding position = b.finish then pure () else
    malformed start (.blockLength b.id) : Reader Unit) _ = _
  split <;> rfl

namespace Decoder

variable {announced : List (Nat × Abbreviation)} {b : OpenBlock} {outer : List OpenBlock}
  {blocks : List Block}

/-- A block is entered where its header is, if as many words as it announces are there. -/
theorem enter_header (d : Decoder) {id width words : Nat} (hdepth : d.openBlocks.length ≤ maxDepth)
    (hid : id < 2 ^ 64) (hwidth : 2 ≤ width ∧ width ≤ 32) (hwords : words < 2 ^ 32)
    (fs : List Field) (position : Nat) (rest : List Bool) :
    let start := Field.extent position (BlockHeader.fields id width words)
    d.enter ⟨position, Field.bits position (BlockHeader.fields id width words ++ fs) ++ rest⟩ =
      if (Field.bits start fs ++ rest).length < words * 32 then .error (.endOfInput start)
      else .ok ({ d with openBlocks := ⟨id, width, by omega, start + words * 32,
          d.announcedFor id, none, []⟩ :: d.openBlocks }, ⟨start, Field.bits start fs ++ rest⟩) := by
  intro start
  have hread := BlockHeader.read_eq hdepth hid hwidth hwords fs position rest
  dsimp only at hread
  split
  · rename_i hshort
    rw [if_pos hshort] at hread
    exact bind_apply_error hread
  · rename_i hroom
    rw [if_neg hroom] at hread
    exact bind_apply_ok hread

/-- At its end a block is closed if it has the length its header says, and else the run fails. -/
theorem run_endBlock (position : Nat) (rest : List Bool) :
    (Decoder.mk announced (b :: outer) blocks).run
        ⟨position, Field.bits position (Item.endBlock b.width) ++ rest⟩ =
      if Field.extent position (Item.endBlock b.width) = b.finish then
        ((Decoder.mk announced (b :: outer) blocks).close b outer).run
          ⟨Field.extent position (Item.endBlock b.width), rest⟩
      else .error (.malformed position (.blockLength b.id)) := by
  have hend := b.readEnd_eq position (position + b.width) rest
  have hextent : Field.extent position (Item.endBlock b.width) =
      position + b.width + padding (position + b.width) := rfl
  rw [hextent, Item.endBlock, run_inside (Nat.two_pow_pos _)]
  split
  · rename_i hfinish
    rw [if_pos hfinish] at hend
    exact runAfter_ok (bind_apply_ok hend)
  · rename_i hfinish
    rw [if_neg hfinish] at hend
    exact runAfter_error (bind_apply_error hend)

/-- A decoder with a finished block added to the innermost open block, or to the top level. -/
def adding (outer : List OpenBlock) (blocks : List Block) (id : Nat) (entries : List Entry) :
    Decoder :=
  match outer with
  | [] => ⟨[], [], ⟨id, entries⟩ :: blocks⟩
  | o :: rest => inside (o.push (.block id entries)) rest blocks

theorem close_eq (hb : b.id ≠ announcingBlock) :
    (inside b outer blocks).close b outer = adding outer blocks b.id b.entries.reverse := by
  unfold close
  rw [if_neg hb]
  cases outer <;> rfl

variable {id width : Nat} {items : List Item}

/-- A decoder that has read the start of a block. -/
theorem enter_eq (blocks : List Block) (items : List Item) (hdepth : outer.length ≤ maxDepth)
    (hid : id < 2 ^ 64) (hwidth : 2 ≤ width ∧ width ≤ 32) (position : Nat) (rest : List Bool) :
    let words := Item.lengthWord (Item.body width items)
    let start := Field.extent position (BlockHeader.fields id width words)
    (Decoder.mk [] outer blocks).enter
        ⟨position, Field.bits position (Item.blockFields id width items) ++ rest⟩ =
      if (Field.bits start (Item.body width items) ++ rest).length < words * 32 then
        .error (.endOfInput start)
      else .ok (inside ⟨id, width, by omega, start + words * 32, [], none, []⟩ outer blocks,
        ⟨start, Field.bits start (Item.body width items) ++ rest⟩) := by
  intro words start
  exact enter_header (.mk [] outer blocks) hdepth hid hwidth (Item.lengthWord_lt _) _ position rest

/-- The body of a fresh block ends it, if its header has told the right length. -/
theorem run_body (hzero : b.id ≠ announcingBlock) (hentries : b.entries = [])
    (hwalk : Walks b outer blocks [] items (Item.listFields b.width items) (Item.ListFits items))
    (hfits : Item.ListFits items) {start : Nat} (hstart : start % 32 = 0) (rest : List Bool) :
    (inside b outer blocks).run
        ⟨start, Field.bits start (Item.body b.width items) ++ rest⟩ =
      if start + Field.extent 0 (Item.body b.width items) = b.finish then
        (adding outer blocks b.id (Item.listEntries [] items)).run
          ⟨start + Field.extent 0 (Item.body b.width items), rest⟩
      else .error (.malformed (Field.extent start (Item.listFields b.width items))
        (.blockLength b.id)) := by
  have hend := @run_endBlock [] (b.extend [] items) outer blocks
    (Field.extent start (Item.listFields b.width items)) rest
  have hextent : Field.extent (Field.extent start (Item.listFields b.width items))
      (Item.endBlock (b.extend [] items).width) =
      start + Field.extent 0 (Item.body b.width items) := by
    rw [← Item.extent_body start hstart, Item.body, Field.extent_append]
    rfl
  have hclose : (inside (b.extend [] items) outer blocks).close (b.extend [] items) outer =
      adding outer blocks b.id (Item.listEntries [] items) := by
    rw [close_eq (b := b.extend [] items) hzero]
    simp [OpenBlock.extend, hentries]
  rw [hextent, hclose] at hend
  rw [Item.body, Field.bits_append, List.append_assoc, hwalk.run_eq hfits]
  exact hend

/-- The items of a new block can be walked over. -/
def WalksBody (outer : List OpenBlock) (blocks : List Block) (id width : Nat)
    (items : List Item) : Prop :=
  ∀ b : OpenBlock, b.id = id → b.width = width → b.abbreviations = [] →
    Walks b outer blocks [] items (Item.listFields width items) (Item.ListFits items)

/-- A block that fits is read as a whole. -/
theorem runAfter_enter_eq (hzero : id ≠ announcingBlock) (hdepth : outer.length ≤ maxDepth)
    (hwidth : 2 ≤ width ∧ width ≤ 32) (hwalk : WalksBody outer blocks id width items)
    (hfits : Item.Fits (.block id width items)) (position : Nat) (rest : List Bool) :
    runAfter (Decoder.mk [] outer blocks).enter
        ⟨position, Field.bits position (Item.blockFields id width items) ++ rest⟩ =
      (adding outer blocks id (Item.listEntries [] items)).run
        ⟨Field.extent position (Item.blockFields id width items), rest⟩ := by
  obtain ⟨hid, hsize, hitems⟩ := hfits
  have henter := enter_eq blocks items hdepth hid hwidth position rest
  have hwords := Item.lengthWord_mul_eq_iff.mpr hsize
  have hstart := BlockHeader.extent_mod position id width (Item.lengthWord (Item.body width items))
  have hextent : Field.extent position (Item.blockFields id width items) =
      Field.extent position (BlockHeader.fields id width
        (Item.lengthWord (Item.body width items))) + Field.extent 0 (Item.body width items) := by
    rw [Item.blockFields, Field.extent_append, Item.extent_body _ hstart]
  have hroom := Field.extent_eq (Field.extent position (BlockHeader.fields id width
    (Item.lengthWord (Item.body width items)))) (Item.body width items)
  rw [Item.extent_body _ hstart] at hroom
  dsimp only at henter
  rw [if_neg (by rw [List.length_append]; omega)] at henter
  rw [runAfter_ok henter, run_body hzero rfl (hwalk _ rfl rfl rfl) hitems hstart, hwords,
    if_pos rfl, hextent]

/-- No block is entered whose id has more than 64 bits. -/
theorem runAfter_enter_id_error (blocks : List Block) (items : List Item)
    (hdepth : outer.length ≤ maxDepth) (hid : ¬ id < 2 ^ 64) (position : Nat) (rest : List Bool) :
    ∃ e, runAfter (Decoder.mk [] outer blocks).enter
      ⟨position, Field.bits position (Item.blockFields id width items) ++ rest⟩ = .error e := by
  have hrefuse : Refuses (BlockHeader.read outer.length) (Item.blockFields id width items) := by
    refine refuses_position ?_
    intro start
    rw [if_neg (Nat.not_lt.mpr hdepth), Item.blockFields, BlockHeader.fields, List.append_assoc,
      List.append_assoc]
    exact (VbrWidth.eight.refuses_read hid).bind _ _
  obtain ⟨e, he⟩ := hrefuse position rest
  exact ⟨e, runAfter_error (bind_apply_error he)⟩

/-- A block that does not fit is not read. -/
theorem runAfter_enter_error (hzero : id ≠ announcingBlock) (hdepth : outer.length ≤ maxDepth)
    (hwidth : 2 ≤ width ∧ width ≤ 32) (hwalk : WalksBody outer blocks id width items)
    (hfits : ¬ Item.Fits (.block id width items)) (position : Nat) (rest : List Bool) :
    ∃ e, runAfter (Decoder.mk [] outer blocks).enter
      ⟨position, Field.bits position (Item.blockFields id width items) ++ rest⟩ = .error e := by
  by_cases hid : id < 2 ^ 64
  · have henter := enter_eq blocks items hdepth hid hwidth position rest
    have hstart := BlockHeader.extent_mod position id width
      (Item.lengthWord (Item.body width items))
    dsimp only at henter
    split at henter
    · exact ⟨_, runAfter_error henter⟩
    · rw [runAfter_ok henter]
      by_cases hitems : Item.ListFits items
      · -- The body is too long, so the saturated length is not where it ends.
        have hwords := mt Item.lengthWord_mul_eq_iff.mp fun hsize => hfits ⟨hid, hsize, hitems⟩
        rw [run_body hzero rfl (hwalk _ rfl rfl rfl) hitems hstart, if_neg]
        · exact ⟨_, rfl⟩
        · exact fun hend => hwords (Nat.add_left_cancel hend).symm
      · rw [Item.body, Field.bits_append, List.append_assoc]
        exact (hwalk _ rfl rfl rfl).run_error hitems _ _
  · exact runAfter_enter_id_error blocks items hdepth hid position rest

theorem walks_block (hzero : id ≠ announcingBlock) (hdepth : outer.length + 1 ≤ maxDepth)
    (hw : 2 ≤ b.width) (hwidth : 2 ≤ width ∧ width ≤ 32) (codes : List Nat)
    (hwalk : WalksBody (b :: outer) blocks id width items) :
    Walks b outer blocks codes [.block id width items]
      (Item.fields b.width (.block id width items)) (Item.Fits (.block id width items)) := by
  have hid : 1 < 2 ^ b.width := by
    have : 2 ^ 2 ≤ 2 ^ b.width := Nat.pow_le_pow_right (by decide) hw
    omega
  have hpush : adding (b :: outer) blocks id (Item.listEntries [] items) =
      inside (b.extend codes [.block id width items]) outer blocks := by
    simp [adding, OpenBlock.extend, OpenBlock.push, Item.listEntries, Item.entries, Item.defined]
  have hopen : (b :: outer).length ≤ maxDepth := hdepth
  rw [Item.fields_block]
  constructor
  · intro hfits position rest
    rw [run_inside hid, ← hpush]
    exact runAfter_enter_eq hzero hopen hwidth hwalk hfits _ rest
  · intro hfits position rest
    rw [run_inside hid]
    exact runAfter_enter_error hzero hopen hwidth hwalk hfits _ rest

/-! ## Whole trees -/

theorem walks_nil (b : OpenBlock) (outer : List OpenBlock) (blocks : List Block)
    (codes : List Nat) : Walks b outer blocks codes [] [] True :=
  ⟨fun _ position rest => by rw [OpenBlock.extend_nil]; rfl, fun h => absurd trivial h⟩

/-- Walks over an item and over those behind it make a walk over all of them. -/
theorem Walks.cons {codes : List Nat} {i : Item} {is : List Item} {fs gs : List Field}
    {fits fits' : Prop} (hi : Walks b outer blocks codes [i] fs fits)
    (his : Walks (b.extend codes [i]) outer blocks (codes ++ i.defined) is gs fits') :
    Walks b outer blocks codes (i :: is) (fs ++ gs) (fits ∧ fits') := by
  constructor
  · rintro ⟨hfits, hfits'⟩ position rest
    rw [Field.bits_append, List.append_assoc, hi.run_eq hfits, his.run_eq hfits',
      ← OpenBlock.extend_cons, Field.extent_append]
  · intro hfits position rest
    rw [Field.bits_append, List.append_assoc]
    by_cases hfit : fits
    · rw [hi.run_eq hfit]
      exact his.run_error (fun h => hfits ⟨hfit, h⟩) _ rest
    · exact hi.run_error hfit _ _

mutual

/-- Every valid item is walked over. -/
theorem walks_fields : ∀ (i : Item) {b : OpenBlock} {outer : List OpenBlock}
    {blocks : List Block} {codes : List Nat}, b.id ≠ announcingBlock →
    2 ≤ b.width → b.abbreviations = codes.map blobLayout →
    Item.Valid (outer.length + 1) b.width codes i →
    Walks b outer blocks codes [i] (Item.fields b.width i) (Item.Fits i)
  | .record code ops, _, _, _, _, hb, hw, _, _ => walks_record hb hw code ops
  | .blobAbbreviation code, _, _, _, _, hb, hw, _, _ => walks_blobAbbreviation hb hw code
  | .blob bytes, _, _, _, _, _, _, habbr, hvalid => by
    simp only [Item.Valid] at hvalid
    exact walks_blob hvalid.1 hvalid.2 habbr bytes
  | .block id width items, b, outer, blocks, codes, _, hw, _, hvalid => by
    simp only [Item.Valid] at hvalid
    obtain ⟨hzero, hdepth, hwidth, hitems⟩ := hvalid
    refine walks_block hzero hdepth hw hwidth codes ?_
    rintro b' rfl rfl habbr'
    exact walks_listFields items hzero hwidth.1 habbr' hitems

/-- Every list of valid items is walked over. -/
theorem walks_listFields : ∀ (items : List Item) {b : OpenBlock} {outer : List OpenBlock}
    {blocks : List Block} {codes : List Nat}, b.id ≠ announcingBlock →
    2 ≤ b.width → b.abbreviations = codes.map blobLayout →
    Item.ListValid (outer.length + 1) b.width codes items →
    Walks b outer blocks codes items (Item.listFields b.width items) (Item.ListFits items)
  | [], _, _, _, _, _, _, _, _ => walks_nil _ _ _ _
  | i :: is, b, outer, blocks, codes, hb, hw, habbr, hvalid => by
    simp only [Item.ListValid] at hvalid
    have habbr' : (b.extend codes [i]).abbreviations = (codes ++ i.defined).map blobLayout := by
      simp [OpenBlock.extend, habbr]
    exact (walks_fields i hb hw habbr hvalid.1).cons
      (walks_listFields is (b := b.extend codes [i]) hb hw habbr' hvalid.2)

end

end Decoder

end CircuitQir.Bitstream
