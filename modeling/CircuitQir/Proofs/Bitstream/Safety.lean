import CircuitQir.Proofs.Bitstream.Triples
import CircuitQir.Proofs.Bitstream.Walk
/-!
# Reading the container is safe

The decoder goes from state to state (`Decoder.Reached`). Every state it comes to, on whatever
input, is sound (`Decoder.Sound`): there are at most 33 blocks open, and all abbreviations, those of
the open blocks and those announced for others, have passed the check that is made on a definition.
That check is what lets the records be read: no element of an array is without bits, no number is
wider than a word, and behind an array its element is there.
-/

namespace CircuitQir.Bitstream

open Reader

variable {bytes : List UInt8}

/-! ## Abbreviations -/

def AbbreviationOperand.InRange : AbbreviationOperand → Prop
  | scalar s => s.InRange
  | array | blob => True

/-- The widths of an abbreviation are those of words, and the elements of its array take up bits. -/
structure Abbreviation.InRange (a : Abbreviation) : Prop where
  scalars : ∀ s ∈ a.scalars, s.InRange
  element : ∀ s, a.aggregate = .array s → s.InRange ∧ s.isLiteral = false

namespace AbbreviationOperand

variable {start : Nat}

theorem keeps_readWidth (hstart : start ≤ 8 * bytes.length) :
    Keeps bytes 0 (· ≤ 64) (readWidth start) := by
  refine (VbrWidth.five.keeps_read (by decide)).before fun width _ => ?_
  split
  · exact keeps_pure ‹_›
  · exact keeps_malformed hstart

/-- An operand of a definition takes up bits. -/
theorem keeps_read (hstart : start ≤ 8 * bytes.length) : Keeps bytes 1 InRange (read start) := by
  refine (keeps_number 1).bind (n := 0) fun flag _ => ?_
  split
  · refine (VbrWidth.eight.keeps_read (by decide)).before fun value hvalue => ?_
    exact keeps_pure hvalue
  · refine (keeps_number 3).before fun encoding _ => ?_
    split
    · refine (keeps_readWidth hstart).before fun width hwidth => keeps_pure ?_
      split
      · exact Nat.two_pow_pos 64
      · exact ⟨Nat.pos_of_ne_zero ‹_›, hwidth⟩
    · refine (keeps_readWidth hstart).before fun width hwidth => ?_
      split
      · exact keeps_pure hwidth
      · split
        · exact keeps_pure (Nat.two_pow_pos 64)
        · exact keeps_malformed hstart
    · exact keeps_pure trivial
    · exact keeps_pure trivial
    · exact keeps_pure trivial
    · exact keeps_malformed hstart

end AbbreviationOperand

namespace Abbreviation

/-- The operands that define an abbreviation. -/
def operands (a : Abbreviation) : List AbbreviationOperand :=
  a.scalars.map .scalar ++ match a.aggregate with
    | .none => []
    | .array element => [.array, .scalar element]
    | .blob => [.blob]

/-- The check of a definition lets aggregates pass at the end only, and arrays of elements only that
take up bits. -/
theorem eq_operands_of_ofOperands {ops : List AbbreviationOperand} {a : Abbreviation}
    (h : ofOperands ops = .ok a) :
    ops = a.operands ∧ ∀ s, a.aggregate = .array s → s.isLiteral = false := by
  induction ops using ofOperands.induct generalizing a with
  | case1 =>
    obtain rfl := Except.ok.inj h
    exact ⟨rfl, nofun⟩
  | case2 s rest ih =>
    rw [ofOperands] at h
    cases hrest : ofOperands rest with
    | error flaw =>
      rw [hrest] at h
      cases h
    | ok b =>
      rw [hrest] at h
      obtain rfl := Except.ok.inj h
      obtain ⟨hops, helement⟩ := ih hrest
      refine ⟨?_, helement⟩
      rw [hops]
      rfl
  | case3 s hliteral =>
    rw [ofOperands, if_pos hliteral] at h
    cases h
  | case4 s hliteral =>
    rw [ofOperands, if_neg hliteral] at h
    obtain rfl := Except.ok.inj h
    exact ⟨rfl, by simpa using hliteral⟩
  | case5 rest hrest =>
    rw [ofOperands] at h
    · cases h
    · exact hrest
  | case6 =>
    obtain rfl := Except.ok.inj h
    exact ⟨rfl, nofun⟩
  | case7 rest hrest =>
    rw [ofOperands] at h
    · cases h
    · exact hrest

theorem inRange_of_ofOperands {ops : List AbbreviationOperand} {a : Abbreviation}
    (hops : ∀ o ∈ ops, o.InRange) (h : ofOperands ops = .ok a) : a.InRange := by
  obtain ⟨rfl, helement⟩ := eq_operands_of_ofOperands h
  refine ⟨fun s hs => ?_, fun s hs => ⟨?_, helement s hs⟩⟩
  · exact hops (.scalar s) (List.mem_append_left _ (List.mem_map_of_mem hs))
  · refine hops (.scalar s) (List.mem_append_right _ ?_)
    rw [hs]
    exact List.mem_cons_of_mem _ List.mem_cons_self

theorem ofOperands_operands {a : Abbreviation} (ha : a.InRange) :
    ofOperands a.operands = .ok a := by
  obtain ⟨scalars, aggregate⟩ := a
  induction scalars with
  | nil =>
    cases aggregate with
    | none | blob => rfl
    | array s =>
      obtain ⟨-, hs⟩ := ha.element s rfl
      simp [operands, ofOperands, hs]
  | cons s scalars ih =>
    have hrest := ih ⟨(List.forall_mem_cons.mp ha.scalars).2, ha.element⟩
    show ofOperands (.scalar s :: operands ⟨scalars, aggregate⟩) = _
    rw [ofOperands, hrest]
    rfl

/-- In a definition that has passed the check there is an operand behind an array, and it is the one
for its elements. -/
theorem getElem?_succ_of_array {ops : List AbbreviationOperand} {a : Abbreviation}
    (h : ofOperands ops = .ok a) {i : Nat} (hi : ops[i]? = some .array) :
    ∃ s, ops[i + 1]? = some (.scalar s) ∧ a.aggregate = .array s ∧ s.isLiteral = false := by
  obtain ⟨rfl, helement⟩ := eq_operands_of_ofOperands h
  rw [operands] at hi ⊢
  by_cases hlt : i < (a.scalars.map AbbreviationOperand.scalar).length
  · rw [List.getElem?_append_left hlt] at hi
    obtain ⟨s, -, hs⟩ := List.mem_map.mp (List.mem_of_getElem? hi)
    cases hs
  · obtain ⟨k, rfl⟩ := Nat.exists_eq_add_of_le (Nat.le_of_not_lt hlt)
    rw [List.getElem?_append_right (Nat.le_add_right ..), Nat.add_sub_cancel_left] at hi
    rw [Nat.add_assoc, List.getElem?_append_right (Nat.le_add_right ..), Nat.add_sub_cancel_left]
    cases hagg : a.aggregate with
    | none =>
      rw [hagg] at hi
      cases hi
    | blob =>
      rw [hagg] at hi
      cases List.mem_singleton.mp (List.mem_of_getElem? hi)
    | array s =>
      rw [hagg] at hi
      match k, hi with
      | 0, _ => exact ⟨s, rfl, rfl, helement s hagg⟩
      | 1, hi | k + 2, hi => cases hi

/-- What is wrong with the operand at place `i` of a definition, if anything. The operand behind an
array is looked up by its place. -/
def flawAt? (ops : List AbbreviationOperand) (i : Nat) : Option (Option Flaw) := do
  match ← ops[i]? with
  | .scalar _ => return none
  | .blob => return if i + 1 = ops.length then none else some .blobNotLast
  | .array =>
    if i + 2 ≠ ops.length then return some .arrayElement
    else
      match ← ops[i + 1]? with
      | .scalar s => return if s.isLiteral then some .arrayElement else none
      | _ => return some .arrayElement

/-- The first flaw of a definition from the operand at place `i` on. -/
def firstFlaw? (ops : List AbbreviationOperand) : (rounds i : Nat) → Option (Option Flaw)
  | 0, _ => return none
  | rounds + 1, i => do
    match ← flawAt? ops i with
    | none => firstFlaw? ops rounds (i + 1)
    | some flaw => return some flaw

theorem flawAt?_cons (o : AbbreviationOperand) (ops : List AbbreviationOperand) (i : Nat) :
    flawAt? (o :: ops) (i + 1) = flawAt? ops i := by
  simp only [flawAt?, List.getElem?_cons_succ, List.length_cons]
  have h : i + 1 + 2 = ops.length + 1 ↔ i + 2 = ops.length := by omega
  simp only [ne_eq, Nat.add_right_cancel_iff, h]

theorem firstFlaw?_cons (o : AbbreviationOperand) (ops : List AbbreviationOperand) :
    ∀ rounds i, firstFlaw? (o :: ops) rounds (i + 1) = firstFlaw? ops rounds i
  | 0, _ => rfl
  | rounds + 1, i => by
    rw [firstFlaw?, firstFlaw?, flawAt?_cons]
    simp only [firstFlaw?_cons o ops rounds]

/-- Looking up operands by their place, the check of a definition never misses one, and finds what
is found by taking the definition apart. -/
theorem firstFlaw?_eq (ops : List AbbreviationOperand) : firstFlaw? ops ops.length 0 =
    some (match ofOperands ops with | .ok _ => none | .error flaw => some flaw) := by
  induction ops using ofOperands.induct with
  | case1 => rfl
  | case2 s rest ih =>
    rw [List.length_cons, firstFlaw?]
    show firstFlaw? _ rest.length (0 + 1) = _
    rw [firstFlaw?_cons, ih, ofOperands]
    cases ofOperands rest <;> rfl
  | case3 s hliteral =>
    rw [ofOperands, if_pos hliteral]
    simp [firstFlaw?, flawAt?, hliteral]
  | case4 s hliteral =>
    rw [ofOperands, if_neg hliteral]
    simp [firstFlaw?, flawAt?, hliteral]
  | case5 rest hrest =>
    have hflaw : flawAt? (.array :: rest) 0 = some (some .arrayElement) := by
      match rest, hrest with
      | [], _ | _ :: _ :: _, _ => simp [flawAt?]
      | [.scalar s], hrest => exact absurd rfl (hrest s)
      | [.array], _ | [.blob], _ => rfl
    rw [List.length_cons, firstFlaw?, hflaw, ofOperands]
    · rfl
    · exact hrest
  | case6 => rfl
  | case7 rest hrest =>
    have hflaw : flawAt? (.blob :: rest) 0 = some (some .blobNotLast) := by
      match rest, hrest with
      | [], hrest => exact absurd rfl hrest
      | _ :: _, _ => simp [flawAt?]
    rw [List.length_cons, firstFlaw?, hflaw, ofOperands]
    · rfl
    · exact hrest

end Abbreviation

theorem Abbreviation.keeps_read : Keeps bytes 0 InRange Abbreviation.read := by
  refine keeps_position.before fun start hstart => ?_
  refine (VbrWidth.five.keeps_read (by decide)).before fun count _ => ?_
  refine (keeps_times (AbbreviationOperand.keeps_read hstart) count).before fun ops hops => ?_
  split
  · exact keeps_malformed hstart
  · rename_i a ha
    split
    · exact keeps_malformed hstart
    · exact keeps_pure (inRange_of_ofOperands hops ha)

/-! ## Records -/

/-- The numbers of a record fit into words. -/
structure Record.Small (r : Record) : Prop where
  code_lt : r.code < 2 ^ 64
  ops_lt : ∀ n ∈ r.ops, n < 2 ^ 64

/-- The numbers of all records of an entry fit into words. -/
inductive Entry.Small : Entry → Prop
  | record {r : Record} (h : r.Small) : Small (.record r)
  | block {id : Nat} {entries : List Entry} (h : ∀ e ∈ entries, Small e) :
    Small (.block id entries)

namespace Record

theorem keeps_read : Keeps bytes 0 Small Record.read := by
  have hsix : Keeps bytes 1 (· < 2 ^ 64) VbrWidth.six.read := VbrWidth.six.keeps_read (by decide)
  refine hsix.before fun code hcode => hsix.before fun count _ => ?_
  exact (keeps_times hsix count).before fun ops hops => keeps_pure ⟨hcode, hops⟩

theorem keeps_readBlob : Keeps bytes 0 (fun _ => True) readBlob := by
  refine (VbrWidth.six.keeps_read (by decide)).before fun count _ => ?_
  refine keeps_get.before fun c hc => ?_
  split
  · exact keeps_throw hc.position_le
  · refine keeps_align.before fun _ _ => (keeps_times (keeps_number 8) count).before fun _ _ => ?_
    exact keeps_align.before fun _ _ => keeps_pure trivial

theorem keeps_readScalars : ∀ {ss : List Scalar}, (∀ s ∈ ss, s.InRange) →
    Keeps bytes 0 (fun ns : List Nat => ∀ n ∈ ns, n < 2 ^ 64) (readScalars ss)
  | [], _ => keeps_pure (by simp)
  | s :: ss, h => by
    obtain ⟨hs, hss⟩ := List.forall_mem_cons.mp h
    refine (s.keeps_read hs).before fun n hn => (keeps_readScalars hss).before fun ns hns => ?_
    exact keeps_pure (List.forall_mem_cons.mpr ⟨hn, hns⟩)

theorem keeps_readAbbreviated {a : Abbreviation} (ha : a.InRange) :
    Keeps bytes 0 Small (readAbbreviated a) := by
  obtain ⟨scalars, aggregate⟩ := a
  cases scalars with
  | nil => exact keeps_position.before fun bit hbit => keeps_malformed hbit
  | cons first others =>
    obtain ⟨hfirst, hothers⟩ := List.forall_mem_cons.mp ha.scalars
    refine (first.keeps_read hfirst).before fun code hcode => ?_
    refine (keeps_readScalars hothers).before fun ops hops => ?_
    cases aggregate with
    | none => exact keeps_pure ⟨hcode, hops⟩
    | array element =>
      obtain ⟨helement, -⟩ := ha.element element rfl
      refine (VbrWidth.six.keeps_read (by decide)).before fun count _ => ?_
      refine (keeps_times (element.keeps_read helement) count).before fun more hmore => ?_
      exact keeps_pure ⟨hcode, List.forall_mem_append.mpr ⟨hops, hmore⟩⟩
    | blob => exact keeps_readBlob.before fun blob _ => keeps_pure ⟨hcode, hops⟩

end Record

/-! ## Blocks -/

/-- The start of a block has been accepted: it is not nested too deeply, its abbreviation ids fit
into a word of the stream, and its end is on the input. -/
structure BlockHeader.Sound (bytes : List UInt8) (depth : Nat) (h : BlockHeader) : Prop where
  depth_le : depth ≤ maxDepth
  width_le : h.width ≤ 32
  finish_le : h.finish ≤ 8 * bytes.length

theorem BlockHeader.keeps_read (depth : Nat) : Keeps bytes 0 (Sound bytes depth) (read depth) := by
  refine keeps_position.before fun start hstart => ?_
  split
  · exact keeps_malformed hstart
  rename_i hdepth
  refine (VbrWidth.eight.keeps_read (by decide)).before fun id _ => ?_
  refine (VbrWidth.four.keeps_read (by decide)).before fun width _ => ?_
  split
  · rename_i hwidth
    refine keeps_align.before fun _ _ => (keeps_number 32).before fun words _ => ?_
    refine keeps_get.before fun c hc => ?_
    split
    · exact keeps_throw hc.position_le
    · refine keeps_pure ⟨Nat.le_of_not_lt hdepth, hwidth.2, ?_⟩
      have hlength := hc.length_rest
      have hle := hc.position_le
      show c.position + words * 32 ≤ _
      omega
  · exact keeps_malformed hstart

/-- What holds of an open block. -/
structure OpenBlock.Sound (bytes : List UInt8) (b : OpenBlock) : Prop where
  width_le : b.width ≤ 32
  finish_le : b.finish ≤ 8 * bytes.length
  abbreviations : ∀ a ∈ b.abbreviations, a.InRange
  entries : ∀ e ∈ b.entries, e.Small

theorem OpenBlock.Sound.push {b : OpenBlock} {e : Entry} (hb : b.Sound bytes) (he : e.Small) :
    (b.push e).Sound bytes :=
  { hb with entries := List.forall_mem_cons.mpr ⟨he, hb.entries⟩ }

theorem OpenBlock.keeps_readEnd (b : OpenBlock) {start : Nat} (hstart : start ≤ 8 * bytes.length) :
    Keeps bytes 0 (fun _ => True) (b.readEnd start) := by
  refine keeps_align.before fun _ _ => keeps_position.before fun _ _ => ?_
  split
  · exact keeps_pure trivial
  · exact keeps_malformed hstart

/-! ## States of the decoder -/

/-- What holds of every state of the decoder. -/
structure Decoder.Sound (bytes : List UInt8) (d : Decoder) : Prop where
  depth_le : d.openBlocks.length ≤ maxDepth + 1
  openBlocks : ∀ b ∈ d.openBlocks, b.Sound bytes
  announced : ∀ p ∈ d.announced, p.2.InRange
  blocks : ∀ b ∈ d.blocks, ∀ e ∈ b.entries, e.Small

/-- What holds of what a step leads to. -/
def Progress.Sound (bytes : List UInt8) : Progress → Prop
  | .done blocks => ∀ b ∈ blocks, ∀ e ∈ b.entries, e.Small
  | .more d => d.Sound bytes

namespace Decoder

variable {d : Decoder} {b : OpenBlock} {outer : List OpenBlock} {start : Nat}

theorem sound_empty : Sound bytes empty :=
  ⟨Nat.zero_le _, nofun, nofun, nofun⟩

/-- The abbreviations in force: those announced and those of the open blocks. -/
def abbreviations (d : Decoder) : List Abbreviation :=
  d.announced.map (·.2) ++ d.openBlocks.flatMap (·.abbreviations)

theorem Sound.abbreviations (hd : d.Sound bytes) : ∀ a ∈ d.abbreviations, a.InRange := by
  refine List.forall_mem_append.mpr ⟨List.forall_mem_map.mpr hd.announced, fun a ha => ?_⟩
  obtain ⟨b, hb, ha⟩ := List.mem_flatMap.mp ha
  exact (hd.openBlocks b hb).abbreviations a ha

theorem inRange_of_mem_announcedFor (hd : d.Sound bytes) (id : Nat) :
    ∀ a ∈ d.announcedFor id, a.InRange := by
  intro a ha
  obtain ⟨⟨target, a'⟩, hmem, ha⟩ := List.mem_filterMap.mp ha
  dsimp only at ha
  split at ha
  · obtain rfl := Option.some.inj ha
    exact hd.announced _ hmem
  · cases ha

/-- Replacing the innermost open block. -/
theorem Sound.replace {b' : OpenBlock} (hd : d.Sound bytes) (hopen : d.openBlocks = b :: outer)
    (hb' : b'.Sound bytes) : Sound bytes { d with openBlocks := b' :: outer } := by
  have hdepth := hd.depth_le
  have hblocks := hd.openBlocks
  rw [hopen] at hdepth hblocks
  exact { hd with
    depth_le := hdepth
    openBlocks := List.forall_mem_cons.mpr ⟨hb', (List.forall_mem_cons.mp hblocks).2⟩ }

theorem keeps_enter (hd : d.Sound bytes) : Keeps bytes 0 (Sound bytes) d.enter := by
  refine (BlockHeader.keeps_read _).before fun h hh => keeps_pure ?_
  have hb : OpenBlock.Sound bytes
      ⟨h.id, h.width, h.width_pos, h.finish, d.announcedFor h.id, none, []⟩ :=
    ⟨hh.width_le, hh.finish_le, inRange_of_mem_announcedFor hd h.id, nofun⟩
  exact { hd with
    depth_le := Nat.succ_le_succ hh.depth_le
    openBlocks := List.forall_mem_cons.mpr ⟨hb, hd.openBlocks⟩ }

theorem Sound.close (hd : d.Sound bytes) (hopen : d.openBlocks = b :: outer) :
    (d.close b outer).Sound bytes := by
  have hdepth := hd.depth_le
  have hblocks := hd.openBlocks
  rw [hopen] at hdepth hblocks
  obtain ⟨hb, houter⟩ := List.forall_mem_cons.mp hblocks
  have hentries : ∀ e ∈ b.entries.reverse, e.Small :=
    fun e he => hb.entries e (List.mem_reverse.mp he)
  unfold Decoder.close
  split
  · exact { hd with depth_le := Nat.le_of_succ_le hdepth, openBlocks := houter }
  · cases outer with
    | nil => exact { hd with
        depth_le := Nat.zero_le _
        openBlocks := nofun
        blocks := List.forall_mem_cons.mpr ⟨hentries, hd.blocks⟩ }
    | cons o rest =>
      obtain ⟨ho, hrest⟩ := List.forall_mem_cons.mp houter
      exact { hd with
        depth_le := Nat.le_of_succ_le hdepth
        openBlocks := List.forall_mem_cons.mpr ⟨ho.push (.block hentries), hrest⟩ }

theorem keeps_define {a : Abbreviation} (hd : d.Sound bytes) (hopen : d.openBlocks = b :: outer)
    (hstart : start ≤ 8 * bytes.length) (ha : a.InRange) :
    Keeps bytes 0 (Sound bytes) (liftM (d.define b outer start a) : Reader Decoder) := by
  have hb : b.Sound bytes := hd.openBlocks b (by rw [hopen]; exact List.mem_cons_self)
  rw [define]
  refine keeps_lift (fun d' h => ?_) fun e h => ?_
  · split at h
    · split at h
      · obtain rfl := Except.ok.inj h
        exact { hd with
          announced := List.forall_mem_append.mpr ⟨hd.announced, by simpa using ha⟩ }
      · cases h
    · obtain rfl := Except.ok.inj h
      refine hd.replace hopen { hb with abbreviations := ?_ }
      exact List.forall_mem_append.mpr ⟨hb.abbreviations, by simpa using ha⟩
  · split at h
    · split at h
      · cases h
      · obtain rfl := Except.error.inj h
        exact hstart
    · cases h

theorem keeps_entry (hd : d.Sound bytes) (hopen : d.openBlocks = b :: outer)
    (hstart : start ≤ 8 * bytes.length) (id : Nat) :
    Keeps bytes 0 (Sound bytes) (d.entry b outer start id) := by
  have hb : b.Sound bytes := hd.openBlocks b (by rw [hopen]; exact List.mem_cons_self)
  unfold entry
  split
  · exact (b.keeps_readEnd hstart).before fun _ _ => keeps_pure (hd.close hopen)
  · exact keeps_enter hd
  · exact Abbreviation.keeps_read.before fun a ha => keeps_define hd hopen hstart ha
  · refine Record.keeps_read.before fun r hr => keeps_pure (hd.replace hopen ?_)
    exact OpenBlock.Sound.push { hb with } (.record hr)
  · split
    · rename_i a ha
      have hinRange := hb.abbreviations a (List.mem_of_getElem? ha)
      refine (Record.keeps_readAbbreviated hinRange).before fun r hr => keeps_pure ?_
      exact hd.replace hopen (hb.push (.record hr))
    · exact keeps_throw hstart

theorem keeps_insideStep (hd : d.Sound bytes) (hopen : d.openBlocks = b :: outer) :
    Keeps bytes 1 (Sound bytes) (d.insideStep b outer) := by
  refine keeps_position.before fun start hstart => ?_
  refine ((keeps_number b.width).imp b.width_pos fun _ => id).bind (n := 0) fun id _ => ?_
  exact keeps_entry hd hopen hstart id

theorem keeps_outsideStep (hd : d.Sound bytes) : Keeps bytes 1 (Sound bytes) d.outsideStep := by
  refine keeps_position.before fun start hstart => ?_
  refine ((keeps_number 2).imp (by decide : 1 ≤ 2) fun _ => id).bind (n := 0) fun id _ => ?_
  split
  · exact keeps_enter hd
  · exact keeps_malformed hstart

theorem keeps_step (hd : d.Sound bytes) : Keeps bytes 0 (Progress.Sound bytes) d.step := by
  obtain ⟨announced, openBlocks, blocks⟩ := d
  cases openBlocks with
  | nil =>
    refine keeps_get.before fun c _ => ?_
    split
    · exact keeps_pure fun b hb => hd.blocks b (List.mem_reverse.mp hb)
    · exact (keeps_outsideStep hd).before fun d' hd' => keeps_pure hd'
  | cons b outer => exact (keeps_insideStep hd rfl).before fun d' hd' => keeps_pure hd'

/-- The states that a decoder comes to on an input with the given magic number in front. -/
inductive Reached (magic bytes : List UInt8) : Decoder → Cursor → Prop
  | start (h : bytes.take 4 = magic) :
    Reached magic bytes empty ⟨32, Bits.ofBytes (bytes.drop 4)⟩
  | step {d d' : Decoder} {c c' : Cursor} (h : Reached magic bytes d c)
    (hstep : d.step c = .ok (.more d', c')) : Reached magic bytes d' c'

variable {magic : List UInt8} {c c' : Cursor}

theorem on_start (hmagic : magic.length = 4) (h : bytes.take 4 = magic) :
    Cursor.On bytes ⟨32, Bits.ofBytes (bytes.drop 4)⟩ := by
  have hlength : 4 ≤ bytes.length := by
    rw [← hmagic, ← h]
    exact List.length_take_le' 4 bytes
  have hbytes : Bits.ofBytes bytes =
      Bits.ofBytes (bytes.take 4) ++ Bits.ofBytes (bytes.drop 4) := by
    rw [← Bits.ofBytes_append, List.take_append_drop]
  refine ⟨by show 32 ≤ _; omega, ?_⟩
  rw [hbytes, List.drop_left' (by rw [Bits.length_ofBytes, h, hmagic])]

/-- Every state that the decoder comes to is sound. -/
theorem Reached.sound (hmagic : magic.length = 4) (h : Reached magic bytes d c) :
    c.On bytes ∧ d.Sound bytes := by
  induction h with
  | start h => exact ⟨on_start hmagic h, sound_empty⟩
  | step _ hstep ih =>
    obtain ⟨hd', hc', -⟩ := (keeps_step ih.2).ok ih.1 hstep
    exact ⟨hc', hd'⟩

/-- Every step that does not end the stream moves ahead. -/
theorem Reached.position_lt (hmagic : magic.length = 4) (h : Reached magic bytes d c)
    {d' : Decoder} (hstep : d.step c = .ok (.more d', c')) : c.position < c'.position := by
  have hc := (h.sound hmagic).1
  have hc' := ((h.step hstep).sound hmagic).1
  have hlt := step_lt hstep
  rw [hc.length_rest, hc'.length_rest] at hlt
  omega

/-- Takes at most `n` steps, and gives nothing if the stream has not come to an end by then. -/
def runFor : (n : Nat) → Decoder → Cursor → Option (Except Error (List Block))
  | 0, _, _ => none
  | n + 1, d, c =>
    match d.step c with
    | .error e => some (.error e)
    | .ok (.done blocks, _) => some (.ok blocks)
    | .ok (.more d', c') => runFor n d' c'

/-- There are no more steps than bits ahead, and one that finds that there are too few. -/
theorem runFor_eq : ∀ {n : Nat} {d : Decoder} {c : Cursor}, c.rest.length < n →
    runFor n d c = some (d.run c)
  | n + 1, d, c, h => by
    rw [runFor]
    split
    · rename_i hstep
      rw [run_of_step_error hstep]
    · rename_i hstep
      rw [run_of_step_done hstep]
    · rename_i hstep
      rw [run_of_step hstep]
      have := step_lt hstep
      exact runFor_eq (by omega)

/-- How a run from a sound state comes out: with records that fit into words, or with an error that
names a place on the input. -/
theorem run_cases (hd : d.Sound bytes) (hc : c.On bytes) : match d.run c with
    | .ok blocks => ∀ b ∈ blocks, ∀ e ∈ b.entries, e.Small
    | .error e => e.On bytes := by
  induction h : c.rest.length using Nat.strongRecOn generalizing d c with
  | ind n ih =>
    cases hstep : d.step c with
    | error e =>
      rw [run_of_step_error hstep]
      exact (keeps_step hd).error hc hstep
    | ok p =>
      obtain ⟨progress, c'⟩ := p
      obtain ⟨hsound, hc', -⟩ := (keeps_step hd).ok hc hstep
      cases progress with
      | done blocks =>
        rw [run_of_step_done hstep]
        exact hsound
      | more d' =>
        rw [run_of_step hstep]
        exact ih _ (h ▸ step_lt hstep) hsound hc' rfl

end Decoder

/-- The abbreviation that an id stands for, whose place is four below it. -/
def OpenBlock.abbreviation? (b : OpenBlock) (id : UInt64) : Option (Option Abbreviation) := do
  let place ← subtract? id 4
  return b.abbreviations[place.toNat]?

/-- Ids that stand for abbreviations are those from 4 on. -/
theorem Decoder.exists_abbreviation? (d : Decoder) (b : OpenBlock) (outer : List OpenBlock)
    (start : Nat) {id : UInt64} (hid : 3 < id) :
    ∃ found, b.abbreviation? id = some found ∧ d.entry b outer start id.toNat =
      match found with
      | some a => do
        return { d with
          openBlocks := b.push (.record (← Record.readAbbreviated a)) :: outer }
      | none => throw (.unknownAbbreviation id.toNat start) := by
  have hlt : 3 < id.toNat := UInt64.lt_iff_toNat_lt.mp hid
  obtain ⟨place, hplace, hnat⟩ :=
    exists_subtract? (x := id) (y := 4) (UInt64.le_iff_toNat_le.mpr hlt)
  obtain ⟨n, hn⟩ : ∃ n, id.toNat = n + 4 := ⟨id.toNat - 4, by omega⟩
  refine ⟨b.abbreviations[n]?, ?_, by rw [hn]; rfl⟩
  rw [OpenBlock.abbreviation?, hplace]
  show some b.abbreviations[place.toNat]? = _
  rw [hnat, hn]
  rfl

/-! ## The whole container -/

/-- What makes reading a container safe, whatever the input is and asks for. -/
structure SafeContainer (magic bytes : List UInt8) : Prop where
  /-- A step for each bit is enough to come to an end. -/
  steps : bytes.take 4 = magic →
    Decoder.runFor (8 * bytes.length) .empty ⟨32, Bits.ofBytes (bytes.drop 4)⟩ =
      some (decode magic bytes)
  /-- The position is never past the end of the input, and neither are the places errors name. -/
  on : ∀ d c, Decoder.Reached magic bytes d c → c.On bytes
  error_on : ∀ e, decode magic bytes = .error e → e.On bytes
  /-- It changes where a number is read, by the width of the number, and nowhere else. -/
  moves : ∀ width, Keeps bytes width (· < 2 ^ width) (Reader.number width)
  /-- It grows with every entry of a block. -/
  entries : ∀ d c, Decoder.Reached magic bytes d c → ∀ d' c', d.step c = .ok (.more d', c') →
    c.position < c'.position
  /-- It grows with everything that is read a number of times: operands of records, elements of
  arrays, bytes of blobs, and operands of definitions. -/
  operands : Loops bytes VbrWidth.six.read
  elements : ∀ d c, Decoder.Reached magic bytes d c → ∀ a ∈ d.abbreviations,
    ∀ s, a.aggregate = .array s → Loops bytes s.read
  blobs : Loops bytes (Reader.number 8)
  definitions : ∀ start, start ≤ 8 * bytes.length → Loops bytes (AbbreviationOperand.read start)
  /-- Blocks are nested at most 33 deep. -/
  depth_le : ∀ d c, Decoder.Reached magic bytes d c → d.openBlocks.length ≤ 33
  /-- No number asks for a byte that is not there, for a shift by 64 or more, or for a character
  outside of the table: none is wider than a word, be its width fixed by the format, by a block for
  its ids, or by an abbreviation. -/
  numbers : ∀ width, width ≤ 64 →
    Guarded.Refines bytes (Guarded.number bytes width) (Reader.number width)
  vbrs : ∀ w : VbrWidth, w.bits ≤ 64 → Guarded.Refines bytes (w.read? bytes) w.read
  widths : ∀ d c, Decoder.Reached magic bytes d c → ∀ b ∈ d.openBlocks, b.width ≤ 32
  scalars : ∀ d c, Decoder.Reached magic bytes d c → ∀ a ∈ d.abbreviations,
    ∀ s, s ∈ a.scalars ∨ a.aggregate = .array s → Guarded.Refines bytes (s.read? bytes) s.read
  /-- The check of a definition looks up no operand that is not there. -/
  check : ∀ ops, Abbreviation.firstFlaw? ops ops.length 0 =
    some (match Abbreviation.ofOperands ops with | .ok _ => none | .error flaw => some flaw)
  /-- Behind an array stands the operand of its elements: operands without it do not pass. -/
  accepted : ∀ ops a, Abbreviation.ofOperands ops = .ok a → a.operands = ops ∧
    ∀ i, ops[i]? = some .array → ∃ s, ops[i + 1]? = some (.scalar s) ∧ a.aggregate = .array s ∧
      s.isLiteral = false
  /-- When a record is read, the operands of its abbreviation are such as pass. That an operand
  stands behind an array among them is then no more than `accepted` says; it holds of the operands
  of every abbreviation by its type. -/
  arrays : ∀ d c, Decoder.Reached magic bytes d c → ∀ a ∈ d.abbreviations,
    Abbreviation.ofOperands a.operands = .ok a ∧
      ∀ i, a.operands[i]? = some .array → ∃ s, a.operands[i + 1]? = some (.scalar s)
  /-- The abbreviation that an id stands for is looked up at no place below the first. -/
  abbreviations : ∀ (d : Decoder) b outer start (id : UInt64), 3 < id →
    ∃ found, b.abbreviation? id = some found ∧ d.entry b outer start id.toNat =
      match found with
      | some a => do
        return { d with
          openBlocks := b.push (.record (← Record.readAbbreviated a)) :: outer }
      | none => throw (.unknownAbbreviation id.toNat start)
  /-- All numbers that are read out fit into words. -/
  contents : ∀ blocks, decode magic bytes = .ok blocks → ∀ b ∈ blocks, ∀ e ∈ b.entries, e.Small

/-- What is read from a container fits into words, and a place that an error names is on the
input. -/
theorem decode_cases {magic : List UInt8} (hmagic : magic.length = 4) (bytes : List UInt8) :
    match decode magic bytes with
    | .ok blocks => ∀ b ∈ blocks, ∀ e ∈ b.entries, e.Small
    | .error e => e.On bytes := by
  rw [decode]
  by_cases h : bytes.take 4 = magic
  · rw [if_pos h]
    exact Decoder.run_cases Decoder.sound_empty (Decoder.on_start hmagic h)
  · rw [if_neg h]
    trivial

theorem safeContainer {magic : List UInt8} (hmagic : magic.length = 4) (bytes : List UInt8) :
    SafeContainer magic bytes where
  steps h := by
    have hc := Decoder.on_start hmagic h
    rw [decode, if_pos h]
    refine Decoder.runFor_eq ?_
    rw [hc.length_rest]
    have hle : 32 ≤ 8 * bytes.length := hc.position_le
    show 8 * bytes.length - 32 < 8 * bytes.length
    omega
  on d c h := (h.sound hmagic).1
  error_on e h := by
    have := decode_cases hmagic bytes
    rwa [h] at this
  moves := keeps_number
  entries d c h d' c' hstep := h.position_lt hmagic hstep
  operands := (VbrWidth.six.keeps_read (by decide)).loops Nat.one_pos
  elements d c h a ha s hs := by
    obtain ⟨hrange, hliteral⟩ := ((h.sound hmagic).2.abbreviations a ha).element s hs
    have hread : Keeps bytes _ _ s.read := s.keeps_read hrange
    rw [hliteral] at hread
    exact hread.loops Nat.one_pos
  blobs := (keeps_number 8).loops (by decide)
  definitions start hstart := (AbbreviationOperand.keeps_read hstart).loops Nat.one_pos
  depth_le d c h := (h.sound hmagic).2.depth_le
  numbers width hwidth := Guarded.refines_number hwidth
  vbrs w hw := w.refines_read hw
  widths d c h b hb := ((h.sound hmagic).2.openBlocks b hb).width_le
  scalars d c h a ha s hs := by
    have hrange := (h.sound hmagic).2.abbreviations a ha
    refine Scalar.refines_read ?_
    rcases hs with hs | hs
    · exact hrange.scalars s hs
    · exact (hrange.element s hs).1
  check := Abbreviation.firstFlaw?_eq
  accepted ops a h := ⟨(Abbreviation.eq_operands_of_ofOperands h).1.symm,
    fun _ hi => Abbreviation.getElem?_succ_of_array h hi⟩
  arrays d c h a ha := by
    have hops := Abbreviation.ofOperands_operands ((h.sound hmagic).2.abbreviations a ha)
    refine ⟨hops, fun i hi => ?_⟩
    obtain ⟨s, hs, -⟩ := Abbreviation.getElem?_succ_of_array hops hi
    exact ⟨s, hs⟩
  abbreviations d b outer start id hid := d.exists_abbreviation? b outer start hid
  contents blocks h := by
    have := decode_cases hmagic bytes
    rwa [h] at this

end CircuitQir.Bitstream
