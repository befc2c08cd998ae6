import CircuitQir.Bitstream.Record
/-!
# Reading a bitstream

Reading goes in steps. A `Decoder` holds the blocks that are open around the place reached,
innermost first, and the abbreviations announced so far for blocks still to come. `Decoder.step`
reads one entry, one definition of an abbreviation, or the start or end of a block. Every step
passes at least the bits of an abbreviation id, so `Decoder.run` comes to an end on every input,
whatever counts and lengths the input claims.

Block 0 is not part of the contents. It announces abbreviations: a record with code 1 in it names
a kind of block, and the definitions after that record hold in all later blocks of that kind.
-/

namespace CircuitQir.Bitstream

/-- How many blocks may be open around a block. -/
def maxDepth : Nat := 32

/-- The block that announces abbreviations for others. -/
def announcingBlock : Nat := 0

/-- A block whose end has not been reached. -/
structure OpenBlock where
  id : Nat
  /-- The width of abbreviation ids. -/
  width : Nat
  width_pos : 0 < width
  /-- The position at which the block declares to end. -/
  finish : Nat
  /-- What the abbreviation ids from 4 on stand for. -/
  abbreviations : List Abbreviation
  /-- The kind of block that definitions in an announcing block are for. -/
  target : Option Nat
  /-- What has been read, the latest first. -/
  entries : List Entry

/-- What is known between two steps. -/
structure Decoder where
  /-- The abbreviations announced, each with the kind of block it is for. -/
  announced : List (Nat × Abbreviation)
  /-- The open blocks, innermost first. -/
  openBlocks : List OpenBlock
  /-- The finished top-level blocks, the latest first. -/
  blocks : List Block

/-! ## Steps -/

/-- The start of a block, read up to the first bit of its body. -/
structure BlockHeader where
  id : Nat
  width : Nat
  width_pos : 0 < width
  finish : Nat

namespace BlockHeader

/-- Reads the start of a block around which `depth` blocks are open. -/
def read (depth : Nat) : Reader BlockHeader := do
  let start ← Reader.position
  if maxDepth < depth then Reader.malformed start .nestedTooDeeply
  else
    let id ← VbrWidth.eight.read
    let width ← VbrWidth.four.read
    if h : 2 ≤ width ∧ width ≤ 32 then
      Reader.align
      let words ← Reader.number 32
      let c ← get
      if c.rest.length < words * 32 then throw (.endOfInput c.position)
      else return ⟨id, width, by omega, c.position + words * 32⟩
    else Reader.malformed start .abbreviationWidth

end BlockHeader

namespace OpenBlock

/-- Reads the end of a block whose closing id stood at bit `start`. -/
def readEnd (b : OpenBlock) (start : Nat) : Reader Unit := do
  Reader.align
  if (← Reader.position) = b.finish then return ()
  else Reader.malformed start (.blockLength b.id)

/-- A block with one more entry. -/
def push (b : OpenBlock) (e : Entry) : OpenBlock := { b with entries := e :: b.entries }

end OpenBlock

/-- What a step leads to. -/
inductive Progress where
  | done (blocks : List Block)
  | more (d : Decoder)

namespace Decoder

/-- The decoder before anything has been read. -/
def empty : Decoder := ⟨[], [], []⟩

/-- The abbreviations announced for a kind of block. -/
def announcedFor (d : Decoder) (id : Nat) : List Abbreviation :=
  d.announced.filterMap fun (target, a) => if target = id then some a else none

/-- Opens a block inside the blocks that are open. -/
def enter (d : Decoder) : Reader Decoder := do
  let h ← BlockHeader.read d.openBlocks.length
  let b : OpenBlock := ⟨h.id, h.width, h.width_pos, h.finish, d.announcedFor h.id, none, []⟩
  return { d with openBlocks := b :: d.openBlocks }

/-- Puts a finished block where it belongs. An announcing block leaves nothing behind. -/
def close (d : Decoder) (b : OpenBlock) (outer : List OpenBlock) : Decoder :=
  if b.id = announcingBlock then { d with openBlocks := outer }
  else
    match outer with
    | [] => { d with openBlocks := [], blocks := ⟨b.id, b.entries.reverse⟩ :: d.blocks }
    | o :: rest => { d with openBlocks := o.push (.block b.id b.entries.reverse) :: rest }

/-- Takes in the definition of an abbreviation whose id stood at bit `start`. -/
def define (d : Decoder) (b : OpenBlock) (outer : List OpenBlock) (start : Nat)
    (a : Abbreviation) : Except Error Decoder :=
  if b.id = announcingBlock then
    match b.target with
    | some target => .ok { d with announced := d.announced ++ [(target, a)] }
    | none => .error (.malformed start .noTargetBlock)
  else
    .ok { d with openBlocks := { b with abbreviations := b.abbreviations ++ [a] } :: outer }

/-- Takes in a record that was spelled out in full. -/
def record (d : Decoder) (b : OpenBlock) (outer : List OpenBlock) (r : Record) : Decoder :=
  let target :=
    if b.id = announcingBlock ∧ r.code = 1 then r.ops.head? else b.target
  { d with openBlocks := { b with target } |>.push (.record r) |> (· :: outer) }

/-- What follows an abbreviation id inside a block. The id stood at bit `start`. -/
def entry (d : Decoder) (b : OpenBlock) (outer : List OpenBlock) (start : Nat) :
    (id : Nat) → Reader Decoder
  | 0 => do
    b.readEnd start
    return d.close b outer
  | 1 => d.enter
  | 2 => do
    let a ← Abbreviation.read
    liftM (d.define b outer start a)
  | 3 => return d.record b outer (← Record.read)
  | n + 4 => do
    match b.abbreviations[n]? with
    | some a =>
      return { d with openBlocks := b.push (.record (← Record.readAbbreviated a)) :: outer }
    | none => throw (.unknownAbbreviation (n + 4) start)

/-- One step inside the innermost open block. -/
def insideStep (d : Decoder) (b : OpenBlock) (outer : List OpenBlock) : Reader Decoder := do
  let start ← Reader.position
  let id ← Reader.number b.width
  d.entry b outer start id

/-- One step outside of all blocks. -/
def outsideStep (d : Decoder) : Reader Decoder := do
  let start ← Reader.position
  let id ← Reader.number 2
  if id = 1 then d.enter else Reader.malformed start (.outsideBlock id)

/-- One step. Outside of all blocks the stream ends where less than a word is left. -/
def step (d : Decoder) : Reader Progress := do
  match d.openBlocks with
  | [] =>
    if (← get).rest.length < 32 then return .done d.blocks.reverse
    else return .more (← d.outsideStep)
  | b :: outer => return .more (← d.insideStep b outer)

/-! ## Every step moves forward -/

open Reader

theorem forward_blockHeader (depth : Nat) : Forward 0 (BlockHeader.read depth) := by
  refine forward_position.bind (n := 0) fun start => ?_
  split
  · exact forward_throw _ _
  · refine (VbrWidth.eight.forward_read.mono (Nat.zero_le _)).bind (n := 0) fun id => ?_
    refine (VbrWidth.four.forward_read.mono (Nat.zero_le _)).bind (n := 0) fun width => ?_
    split
    · refine forward_align.bind (n := 0) fun _ => ?_
      refine ((forward_number 32).mono (Nat.zero_le _)).bind (n := 0) fun words => ?_
      refine forward_get.bind (n := 0) fun c => ?_
      split
      · exact forward_throw _ _
      · exact forward_pure _
    · exact forward_throw _ _

theorem forward_enter (d : Decoder) : Forward 0 d.enter :=
  (forward_blockHeader _).bind fun _ => forward_pure _

theorem forward_readEnd (b : OpenBlock) (start : Nat) : Forward 0 (b.readEnd start) := by
  refine forward_align.bind (n := 0) fun _ => ?_
  refine forward_position.bind (n := 0) fun _ => ?_
  split
  · exact forward_pure _
  · exact forward_throw _ _

theorem forward_define (d : Decoder) (b : OpenBlock) (outer : List OpenBlock) (start : Nat)
    (a : Abbreviation) : Forward 0 (liftM (d.define b outer start a) : Reader Decoder) := by
  intro c x c' h
  cases hd : d.define b outer start a with
  | error e => rw [hd] at h; exact nomatch h
  | ok d' =>
    rw [hd] at h
    cases h
    simp

theorem forward_entry (d : Decoder) (b : OpenBlock) (outer : List OpenBlock) (start id : Nat) :
    Forward 0 (d.entry b outer start id) := by
  unfold entry
  split
  · exact (forward_readEnd b start).bind fun _ => forward_pure _
  · exact d.forward_enter
  · exact Abbreviation.forward_read.bind (n := 0) fun a => d.forward_define b outer start a
  · exact Record.forward_read.bind fun _ => forward_pure _
  · split
    · exact (Record.forward_readAbbreviated _).bind fun _ => forward_pure _
    · exact forward_throw _ _

theorem forward_insideStep (d : Decoder) (b : OpenBlock) (outer : List OpenBlock) :
    Forward 1 (d.insideStep b outer) :=
  forward_position.bind (n := 1) fun start =>
    ((forward_number b.width).mono b.width_pos).bind (m := 1) (n := 0) fun id =>
      d.forward_entry b outer start id

theorem forward_outsideStep (d : Decoder) : Forward 1 d.outsideStep := by
  refine forward_position.bind (n := 1) fun start => ?_
  refine ((forward_number 2).mono (by decide : 1 ≤ 2)).bind (m := 1) (n := 0) fun id => ?_
  split
  · exact d.forward_enter
  · exact forward_throw _ _

/-- A step that does not end the stream leaves less of it. -/
theorem step_lt {d d' : Decoder} {c c' : Cursor} (h : d.step c = .ok (.more d', c')) :
    c'.rest.length < c.rest.length := by
  have key : ∀ r : Reader Decoder, Forward 1 r →
      (r >>= fun x => pure (Progress.more x) : Reader Progress) c = .ok (.more d', c') →
      c'.rest.length < c.rest.length := by
    intro r hr h
    have := (hr.bind (n := 0) fun x => forward_pure (Progress.more x)) c _ c' h
    omega
  obtain ⟨announced, openBlocks, blocks⟩ := d
  cases openBlocks with
  | nil =>
    change (if c.rest.length < 32 then (pure (Progress.done blocks.reverse) : Reader Progress)
      else outsideStep _ >>= fun x => pure (Progress.more x)) c = _ at h
    split at h
    · cases h
    · exact key _ (forward_outsideStep _) h
  | cons b outer => exact key _ (forward_insideStep _ b outer) h

/-- Takes steps until the stream ends, and gives the top-level blocks. -/
def run (d : Decoder) (c : Cursor) : Except Error (List Block) :=
  match _h : d.step c with
  | .error e => .error e
  | .ok (.done blocks, _) => .ok blocks
  | .ok (.more d', c') => run d' c'
termination_by c.rest.length
decreasing_by exact step_lt ‹_›

end Decoder

/-- The top-level blocks of a stream that starts with the given magic number of four bytes. -/
def decode (magic : List UInt8) (bytes : List UInt8) : Except Error (List Block) :=
  if bytes.take 4 = magic then Decoder.empty.run ⟨32, Bits.ofBytes (bytes.drop 4)⟩
  else .error .badMagic

end CircuitQir.Bitstream
