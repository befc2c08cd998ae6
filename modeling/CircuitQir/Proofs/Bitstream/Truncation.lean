import CircuitQir.Proofs.Bitstream.RoundTrip
/-!
# Streams that break off

What is left of a stream that breaks off is never taken for more than it is: it is refused, or read
as some of its first blocks, and never as all of them (`decode_truncated`). A block says how long it
is ahead of its body. Reading its start does not depend on what follows (`Reader.Steady`), so the
start of a block that breaks off announces as many words as it would in the whole stream, and these
are not there. Outside of all blocks less than a word may be left over, and then nothing tells that
something is missing.
-/

namespace CircuitQir.Bitstream

/-- Where a list of two parts is cut, the first part is not all there, or the cut is in the
second. -/
theorem cut_append {α : Type} {front more xs ys : List α} (h : front ++ more = xs ++ ys) :
    (∃ gap, gap ≠ [] ∧ front ++ gap = xs) ∨ ∃ rest, front = xs ++ rest ∧ rest ++ more = ys := by
  rcases List.append_eq_append_iff.mp h with ⟨gap, hfirst, hmore⟩ | ⟨rest, hfront, hsecond⟩
  · by_cases hgap : gap = []
    · exact .inr ⟨[], by simp [hfirst, hgap], by simp [hmore, hgap]⟩
    · exact .inl ⟨gap, hgap, hfirst.symm⟩
  · exact .inr ⟨rest, hfront, hsecond.symm⟩

namespace Reader

/-- Where more follows, the reader reads the same. -/
def Steady {α : Type} (r : Reader α) : Prop :=
  ∀ c x c' more, r c = .ok (x, c') →
    r ⟨c.position, c.rest ++ more⟩ = .ok (x, ⟨c'.position, c'.rest ++ more⟩)

variable {α β : Type}

/-- What came to an end had a value on the way. -/
theorem exists_of_bind {r : Reader α} {f : α → Reader β} {c c' : Cursor} {y : β}
    (h : (r >>= f) c = .ok (y, c')) : ∃ x c₁, r c = .ok (x, c₁) ∧ f x c₁ = .ok (y, c') := by
  change (r c >>= fun (x, c₁) => f x c₁) = _ at h
  cases hr : r c with
  | error e =>
    rw [hr] at h
    cases h
  | ok p =>
    rw [hr] at h
    exact ⟨p.1, p.2, rfl, h⟩

theorem steady_pure (x : α) : Steady (pure x : Reader α) := by
  intro c y c' more h
  cases h
  rfl

theorem steady_throw (e : Error) : Steady (throw e : Reader α) :=
  fun _ _ _ _ h => nomatch h

theorem Steady.bind {r : Reader α} {f : α → Reader β} (hr : Steady r) (hf : ∀ x, Steady (f x)) :
    Steady (r >>= f) := by
  intro c y c' more h
  obtain ⟨x, c₁, hx, hy⟩ := exists_of_bind h
  rw [bind_apply_ok (hr c x c₁ more hx)]
  exact hf x c₁ y c' more hy

theorem steady_number (width : Nat) : Steady (number width) := by
  intro c n c' more h
  unfold number at h ⊢
  split at h
  · rename_i front rest hsplit
    cases h
    obtain ⟨hrest, hlength⟩ := splitExactly?_eq_some hsplit
    have hmore := splitExactly?_append front (rest ++ more)
    rw [hlength] at hmore
    simp only [hrest, List.append_assoc, hmore]
  · cases h

theorem steady_position : Steady position := by
  intro c n c' more h
  cases h
  rfl

theorem steady_align : Steady align :=
  steady_position.bind fun _ => (steady_number _).bind fun _ => steady_pure ()

end Reader

open Reader

theorem VbrWidth.steady_readFrom (w : VbrWidth) (start shift : Nat) :
    Steady (w.readFrom start shift) := by
  induction h : 64 - shift using Nat.strongRecOn generalizing shift with
  | ind n ih =>
    have hw := w.two_le
    rw [readFrom]
    refine (steady_number w.bits).bind fun piece => ?_
    dsimp only
    split
    · exact steady_throw _
    · split
      · exact steady_pure _
      · exact (ih _ (by omega) _ rfl).bind fun _ => steady_pure _

theorem VbrWidth.steady_read (w : VbrWidth) : Steady w.read :=
  steady_position.bind fun _ => w.steady_readFrom _ _

namespace BlockHeader

/-- The check that the words a block announces are there. -/
theorem exists_of_room {id width words : Nat} {hwidth : 0 < width} {h : BlockHeader} {c c' : Cursor}
    (hread : (do
      let c ← get
      if c.rest.length < words * 32 then throw (.endOfInput c.position)
      else return ⟨id, width, hwidth, c.position + words * 32⟩ : Reader BlockHeader) c =
        .ok (h, c')) :
    words * 32 ≤ c.rest.length ∧ h = ⟨id, width, hwidth, c.position + words * 32⟩ ∧ c' = c := by
  change (if c.rest.length < words * 32 then throw _ else pure _ : Reader BlockHeader) c = _
    at hread
  split at hread
  · cases hread
  · rename_i hroom
    cases hread
    exact ⟨Nat.le_of_not_lt hroom, rfl, rfl⟩

/-- Reading the start of a block does not depend on what follows, as long as the words that it
announces are there. -/
theorem steady_read (depth : Nat) : Steady (BlockHeader.read depth) := by
  refine steady_position.bind fun start => ?_
  split
  · exact steady_throw _
  refine VbrWidth.eight.steady_read.bind fun id => ?_
  refine VbrWidth.four.steady_read.bind fun width => ?_
  split
  · refine steady_align.bind fun _ => (steady_number 32).bind fun words => ?_
    intro c h c' more hread
    obtain ⟨hroom, rfl, rfl⟩ := exists_of_room hread
    show (if (c'.rest ++ more).length < words * 32 then throw _ else pure _ : Reader BlockHeader)
      ⟨c'.position, c'.rest ++ more⟩ = _
    rw [if_neg (by rw [List.length_append]; omega)]
    rfl
  · exact steady_throw _

/-- A block whose start is read has the words that it announces. -/
theorem finish_le {depth : Nat} {h : BlockHeader} {c c' : Cursor}
    (hread : BlockHeader.read depth c = .ok (h, c')) :
    h.finish ≤ c'.position + c'.rest.length := by
  obtain ⟨start, c₁, -, hread⟩ := exists_of_bind hread
  split at hread
  · cases hread
  obtain ⟨id, c₂, -, hread⟩ := exists_of_bind hread
  obtain ⟨width, c₃, -, hread⟩ := exists_of_bind hread
  split at hread
  · obtain ⟨_, c₄, -, hread⟩ := exists_of_bind hread
    obtain ⟨words, c₅, -, hread⟩ := exists_of_bind hread
    obtain ⟨hroom, rfl, rfl⟩ := exists_of_room hread
    exact Nat.add_le_add_left hroom _
  · cases hread

end BlockHeader

/-! ## Blocks that break off -/

/-- The blocks among some items have ids and lengths that can be read ahead of their bodies. -/
def Item.Announced (items : List Item) : Prop :=
  ∀ id width inner, Item.block id width inner ∈ items →
    id < 2 ^ 64 ∧ Field.extent 0 (Item.body width inner) / 32 < 2 ^ 32

namespace Decoder

variable {id width : Nat} {items : List Item}

/-- A block that breaks off is refused where its start announces its length. -/
theorem enter_truncated (blocks : List Block) (hid : id < 2 ^ 64) (hwidth : 2 ≤ width ∧ width ≤ 32)
    (hsize : Field.extent 0 (Item.body width items) / 32 < 2 ^ 32) {position : Nat}
    {front more : List Bool} (hmore : more ≠ [])
    (hcut : front ++ more = Field.bits position (Item.blockFields id width items)) :
    ∃ e, (Decoder.mk [] [] blocks).enter ⟨position, front⟩ = .error e := by
  cases henter : (Decoder.mk [] [] blocks).enter ⟨position, front⟩ with
  | error e => exact ⟨e, rfl⟩
  | ok p =>
    obtain ⟨h, c, hread, -⟩ := exists_of_bind henter
    have hroom := BlockHeader.finish_le hread
    have hwhole := BlockHeader.steady_read 0 _ _ _ more hread
    have hwords := Item.lengthWord_mul_eq_iff.mpr hsize
    have hstart := BlockHeader.extent_mod position id width
      (Item.lengthWord (Item.body width items))
    have hbody := Field.extent_eq (Field.extent position (BlockHeader.fields id width
      (Item.lengthWord (Item.body width items)))) (Item.body width items)
    rw [Item.extent_body _ hstart] at hbody
    -- What the whole block starts with is what the part of it was found to start with.
    have hexpected := BlockHeader.read_eq (Nat.zero_le maxDepth) hid hwidth
      (Item.lengthWord_lt (Item.body width items)) (Item.body width items) position []
    dsimp only at hexpected
    rw [← Item.blockFields, ← hcut, List.append_nil, List.append_nil, if_neg (by omega)]
      at hexpected
    obtain ⟨hheader, hcursor⟩ := Prod.mk.inj (Except.ok.inj (hwhole.symm.trans hexpected))
    obtain ⟨hposition, hrest⟩ := Cursor.mk.inj hcursor
    have hlength := congrArg List.length hrest
    rw [List.length_append] at hlength
    have hpositive := List.length_pos_iff.mpr hmore
    rw [hheader] at hroom
    dsimp only at hroom
    omega

/-- Outside of all blocks, one that breaks off is refused, or overlooked if less than a word of it
is there. -/
theorem run_block_truncated (blocks : List Block) (hid : id < 2 ^ 64)
    (hwidth : 2 ≤ width ∧ width ≤ 32)
    (hsize : Field.extent 0 (Item.body width items) / 32 < 2 ^ 32) {position : Nat}
    {front more : List Bool} (hmore : more ≠ [])
    (hcut : front ++ more =
      Field.bits position (Item.fields topLevelWidth (.block id width items))) :
    (Decoder.mk [] [] blocks).run ⟨position, front⟩ = .ok blocks.reverse ∨
      ∃ e, (Decoder.mk [] [] blocks).run ⟨position, front⟩ = .error e := by
  by_cases hword : front.length < 32
  · exact .inl (run_end blocks position hword)
  right
  rw [Item.fields_block] at hcut
  -- The id of a block start is there, since a word is.
  obtain ⟨rest, hfront, hrest⟩ : ∃ rest, front = Field.bits position [.number 1 topLevelWidth] ++
      rest ∧ rest ++ more = Field.bits (position + topLevelWidth)
        (Item.blockFields id width items) := by
    rcases cut_append hcut with ⟨gap, -, hgap⟩ | ⟨rest, hfront, hrest⟩
    · have hlength := congrArg List.length hgap
      rw [List.length_append, Field.length_bitsAt] at hlength
      simp only [Field.after, topLevelWidth] at hlength
      omega
    · exact ⟨rest, by rw [hfront, Field.bits, Field.bits, List.append_nil], hrest⟩
  obtain ⟨e, he⟩ := enter_truncated blocks hid hwidth hsize hmore hrest
  refine ⟨e, ?_⟩
  rw [hfront, run_outside blocks [] position rest (by rw [← hfront]; omega)]
  exact runAfter_error he

/-- A run over blocks that break off fails, or finds only some of the blocks. -/
theorem run_truncated : ∀ (items : List Item) (blocks : List Block) (position : Nat)
    {front more : List Bool}, Item.Forest items → Item.Announced items → more ≠ [] →
    front ++ more = Field.bits position (Item.listFields topLevelWidth items) →
    (∃ e, (Decoder.mk [] [] blocks).run ⟨position, front⟩ = .error e) ∨
      ∃ k < items.length, (Decoder.mk [] [] blocks).run ⟨position, front⟩ =
        .ok (blocks.reverse ++ (Item.forest items).take k)
  | [], blocks, position, front, more, _, _, hmore, hcut => by
    have hnil := (List.append_eq_nil_iff.mp hcut).2
    exact absurd hnil hmore
  | i :: is, blocks, position, front, more, ⟨hblocks, hvalid⟩, hannounced, hmore, hcut => by
    obtain ⟨id, width, inner, rfl⟩ := hblocks i (by simp)
    simp only [Item.ListValid, Item.Valid] at hvalid
    obtain ⟨⟨hzero, -, hwidth, hinner⟩, his⟩ := hvalid
    simp only [Item.defined, List.append_nil] at his
    rw [Item.listFields, Field.bits_append] at hcut
    obtain ⟨hid, hsize⟩ := hannounced id width inner (by simp)
    rcases cut_append hcut with ⟨gap, hgap, hfirst⟩ | ⟨rest, rfl, hrest⟩
    · rcases run_block_truncated blocks hid hwidth hsize hgap hfirst with h | h
      · exact .inr ⟨0, by simp, by simpa using h⟩
      · exact .inl h
    · obtain ⟨hfit, hmisfit⟩ := run_block blocks hzero hwidth hinner position rest
      by_cases hfits : Item.Fits (.block id width inner)
      · rw [hfit hfits]
        have hnext := run_truncated is (⟨id, Item.listEntries [] inner⟩ :: blocks) _
          ⟨fun j hj => hblocks j (by simp [hj]), his⟩
          (fun id width inner hj => hannounced id width inner (by simp [hj])) hmore hrest
        refine hnext.imp_right ?_
        rintro ⟨k, hk, hrun⟩
        refine ⟨k + 1, by simpa using hk, hrun.trans ?_⟩
        simp [Item.forest, Item.block?]
      · exact .inl (hmisfit hfits)

end Decoder

/-! ## Streams that break off -/

variable {magic : List UInt8} {items : List Item}

/-- What is left of a stream that breaks off is refused, or read as some of its first blocks and
not as all of them. -/
theorem decode_truncated (hmagic : magic.length = 4) (hforest : Item.Forest items)
    (hannounced : Item.Announced items) {bytes : List UInt8} (hcut : bytes <+: encode magic items)
    (hne : bytes ≠ encode magic items) :
    (∃ e, decode magic bytes = .error e) ∨
      ∃ k < items.length, decode magic bytes = .ok ((Item.forest items).take k) := by
  obtain ⟨back, hback, hbits⟩ := encode_eq_append hmagic hforest
  obtain ⟨gap, hgap⟩ := hcut
  rw [hback] at hgap
  rcases cut_append hgap with ⟨missing, hmissing, hmagic'⟩ | ⟨rest, rfl, hrest⟩
  · left
    refine ⟨.badMagic, ?_⟩
    have hlength := congrArg List.length hmagic'
    rw [List.length_append, hmagic] at hlength
    have hpositive := List.length_pos_iff.mpr hmissing
    unfold decode
    rw [if_neg]
    intro htake
    have htaken := congrArg List.length htake
    rw [List.length_take, hmagic] at htaken
    omega
  · have hgap : gap ≠ [] := by
      rintro rfl
      rw [List.append_nil] at hrest
      exact hne (by rw [hback, hrest])
    have hmore : Bits.ofBytes gap ≠ [] := by
      rw [ne_eq, ← List.length_eq_zero_iff, Bits.length_ofBytes]
      have hpositive := List.length_pos_iff.mpr hgap
      omega
    rw [← hrest, Bits.ofBytes_append] at hbits
    unfold decode
    rw [List.take_left' hmagic, List.drop_left' hmagic, if_pos rfl]
    exact Decoder.run_truncated items [] 32 hforest hannounced hmore hbits

end CircuitQir.Bitstream
