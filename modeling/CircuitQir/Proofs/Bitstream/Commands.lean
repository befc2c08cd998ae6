import CircuitQir.Proofs.Bitstream.Abbreviations
/-!
# Streams with abbreviations

A `Command` is what can stand in a block. Abbreviations are defined in a block for what follows in
it, or announced in a block 0 for the blocks of some kind that start later. A `Context` says which
of them are in force at a place: those announced before the block began, and behind these the ones
defined in it. The first of them has the number 0 and the abbreviation id 4.

From the start of any block on, the decoder follows commands that are valid there: it takes in the
entries that they mean and comes to the context behind them
(`Decoder.runAfter_enter_commands`). What a record means does not depend on whether it is
abbreviated, so that records may just as well be spelled out (`Decoder.run_spelledOut`). A blob is
lost in that. There is one exception. A record that names a kind of block, which is what a record
with code 1 does in a block 0, is heeded only if it is spelled out (`decode_namedTwice`).
-/

namespace CircuitQir.Bitstream

open Reader

/-- What can stand in a block. -/
inductive Command where
  /-- A record that is spelled out in full. -/
  | plain (code : Nat) (ops : List Nat)
  /-- The definition of an abbreviation, by operands as they are declared. -/
  | define (os : List DeclaredOperand) (a : Abbreviation)
  /-- A record laid out by the abbreviation with the given number. -/
  | abbreviated (number : Nat) (a : Abbreviation) (r : Record)
  /-- A block, whose abbreviation ids take `width` bits. -/
  | block (id width : Nat) (body : List Command)

/-- What is in force at a place in a block. -/
structure Context where
  /-- The abbreviations announced so far, each with the kind of block it is for. -/
  announced : List (Nat × Abbreviation)
  /-- The kind of the block. -/
  id : Nat
  /-- The abbreviations announced for this kind of block before the block began. -/
  installed : List Abbreviation
  /-- The abbreviations defined in the block so far. -/
  defined : List Abbreviation
  /-- The kind of block that definitions in an announcing block are for. -/
  target : Option Nat

namespace Context

/-- The context at the start of a block. -/
def start (announced : List (Nat × Abbreviation)) (id : Nat) : Context :=
  ⟨announced, id, (⟨announced, [], []⟩ : Decoder).announcedFor id, [], none⟩

/-- The abbreviations in force, by their numbers. -/
def abbreviations (s : Context) : List Abbreviation := s.installed ++ s.defined

end Context

namespace Command

/-! ## Meaning -/

mutual

/-- The entries that a command adds to its block. An announcing block leaves nothing behind. -/
def entries : Command → List Entry
  | plain code ops => [.record ⟨code, ops, none⟩]
  | define _ _ => []
  | abbreviated _ _ r => [.record r]
  | block id _ body => if id = announcingBlock then [] else [.block id (listEntries body)]

@[inherit_doc entries]
def listEntries : List Command → List Entry
  | [] => []
  | c :: cs => c.entries ++ listEntries cs

end

mutual

/-- What is in force behind a command. -/
def after (s : Context) : Command → Context
  | plain code ops =>
    if s.id = announcingBlock ∧ code = 1 then { s with target := ops.head? } else s
  | define _ a =>
    if s.id = announcingBlock then
      { s with announced := s.announced ++ (s.target.map fun target => (target, a)).toList }
    else { s with defined := s.defined ++ [a] }
  | abbreviated _ _ _ => s
  | block id _ body => { s with announced := (listAfter (.start s.announced id) body).announced }

@[inherit_doc after]
def listAfter (s : Context) : List Command → Context
  | [] => s
  | c :: cs => listAfter (after s c) cs

end

/-! ## Fields -/

mutual

/-- The fields of a command where abbreviation ids take `outer` bits. -/
def fields (outer : Nat) : Command → List Field
  | plain code ops =>
    .number 3 outer :: (VbrWidth.six.fields code ++ (VbrWidth.six.fields ops.length ++
      ops.flatMap VbrWidth.six.fields))
  | define os _ => .number 2 outer :: Abbreviation.definitionFields os
  | abbreviated number a r => .number (number + 4) outer :: a.fields r
  | block id width body =>
    .number 1 outer ::
      (BlockHeader.fields id width
        (Item.lengthWord (listFields width body ++ Item.endBlock width)) ++
          (listFields width body ++ Item.endBlock width))

@[inherit_doc fields]
def listFields (outer : Nat) : List Command → List Field
  | [] => []
  | c :: cs => fields outer c ++ listFields outer cs

end

/-- A body and the end of its block. -/
def ended (width : Nat) (body : List Command) : List Field :=
  listFields width body ++ Item.endBlock width

/-- The fields of a block behind its abbreviation id. -/
def blockFields (id width : Nat) (body : List Command) : List Field :=
  BlockHeader.fields id width (Item.lengthWord (ended width body)) ++ ended width body

theorem fields_block (outer id width : Nat) (body : List Command) :
    fields outer (.block id width body) = .number 1 outer :: blockFields id width body := rfl

/-! ## Validity -/

mutual

/-- The command can stand inside `depth` blocks, the innermost with abbreviation ids of `width`
bits, where the context holds. -/
def Valid (depth width : Nat) (s : Context) : Command → Prop
  | plain code ops => code < 2 ^ 64 ∧ ops.length < 2 ^ 64 ∧ ∀ n ∈ ops, n < 2 ^ 64
  | define os a => a.DeclaredBy os ∧ (s.id = announcingBlock → s.target.isSome)
  | abbreviated number a r =>
    number + 4 < 2 ^ width ∧ s.abbreviations[number]? = some a ∧ a.Fits r
  | block id inner body =>
    depth ≤ maxDepth ∧ id < 2 ^ 64 ∧ (2 ≤ inner ∧ inner ≤ 32) ∧
      Field.extent 0 (ended inner body) / 32 < 2 ^ 32 ∧
      ListValid (depth + 1) inner (.start s.announced id) body

@[inherit_doc Valid]
def ListValid (depth width : Nat) (s : Context) : List Command → Prop
  | [] => True
  | c :: cs => Valid depth width s c ∧ ListValid depth width (after s c) cs

end

end Command

/-! ## Running over fields -/

namespace Decoder

/-- Wherever the fields stand, and whatever follows them, a run from `d` comes to `d'` behind
them. -/
def Crosses (d : Decoder) (fs : List Field) (d' : Decoder) : Prop :=
  ∀ position rest, d.run ⟨position, Field.bits position fs ++ rest⟩ =
    d'.run ⟨Field.extent position fs, rest⟩

theorem crosses_nil (d : Decoder) : d.Crosses [] d := fun _ _ => rfl

theorem Crosses.append {d₁ d₂ d₃ : Decoder} {fs gs : List Field} (h : d₁.Crosses fs d₂)
    (h' : d₂.Crosses gs d₃) : d₁.Crosses (fs ++ gs) d₃ := by
  intro position rest
  rw [Field.bits_append, List.append_assoc, h, h', Field.extent_append]

variable {announced : List (Nat × Abbreviation)} {b : OpenBlock} {outer : List OpenBlock}
  {blocks : List Block}

/-- What an abbreviation id announces is read from the fields behind it. -/
theorem crosses_entry {id : Nat} {fs : List Field} {d : Decoder} (hid : id < 2 ^ b.width)
    (h : ∀ start, Reads ((Decoder.mk announced (b :: outer) blocks).entry b outer start id) d fs) :
    (Decoder.mk announced (b :: outer) blocks).Crosses (.number id b.width :: fs) d := by
  intro position rest
  rw [run_inside hid]
  exact runAfter_ok (h position (position + b.width) rest)

/-- A decoder with a finished block put where it belongs. -/
def leaving (announced : List (Nat × Abbreviation)) (outer : List OpenBlock) (blocks : List Block)
    (id : Nat) (entries : List Entry) : Decoder :=
  if id = announcingBlock then ⟨announced, outer, blocks⟩
  else
    match outer with
    | [] => ⟨announced, [], ⟨id, entries⟩ :: blocks⟩
    | o :: rest => ⟨announced, o.push (.block id entries) :: rest, blocks⟩

theorem close_eq_leaving : (Decoder.mk announced (b :: outer) blocks).close b outer =
    leaving announced outer blocks b.id b.entries.reverse := by
  unfold close leaving
  cases outer <;> rfl

end Decoder

/-! ## The decoder at a place -/

/-- A block with what is in force at a place in it, and the entries before that place. -/
def Context.opened (s : Context) (b : BlockHeader) (front : List Entry) : OpenBlock :=
  ⟨s.id, b.width, b.width_pos, b.finish, s.abbreviations, s.target, front.reverse⟩

@[simp] theorem Context.opened_id (s : Context) (b : BlockHeader) (front : List Entry) :
    (s.opened b front).id = s.id := rfl

@[simp] theorem Context.opened_target (s : Context) (b : BlockHeader) (front : List Entry) :
    (s.opened b front).target = s.target := rfl

theorem Context.push_opened (s : Context) (b : BlockHeader) (front : List Entry) (e : Entry) :
    (s.opened b front).push e = s.opened b (front ++ [e]) := by
  simp [OpenBlock.push, opened]

/-- The decoder at a place in a block with the given header. -/
abbrev Context.decoder (s : Context) (b : BlockHeader) (outer : List OpenBlock) (blocks : List Block)
    (front : List Entry) : Decoder :=
  ⟨s.announced, s.opened b front :: outer, blocks⟩

namespace Decoder

variable {s : Context} {b : BlockHeader} {outer : List OpenBlock} {blocks : List Block}

theorem record_decoder (front : List Entry) (code : Nat) (ops : List Nat) :
    (s.decoder b outer blocks front).record (s.opened b front) outer ⟨code, ops, none⟩ =
      (Command.after s (.plain code ops)).decoder b outer blocks
        (front ++ Command.entries (.plain code ops)) := by
  simp only [Command.after, Command.entries, Context.decoder, ← Context.push_opened]
  by_cases h : s.id = announcingBlock ∧ code = 1
  · rw [if_pos h, record, Context.opened_id, if_pos h]
    rfl
  · rw [if_neg h, record, Context.opened_id, if_neg h]
    rfl

theorem define_decoder (front : List Entry) (start : Nat) (os : List DeclaredOperand)
    {a : Abbreviation} (htarget : s.id = announcingBlock → s.target.isSome) :
    (s.decoder b outer blocks front).define (s.opened b front) outer start a =
      .ok ((Command.after s (.define os a)).decoder b outer blocks front) := by
  rw [define, Command.after, Context.opened_id, Context.opened_target]
  by_cases hid : s.id = announcingBlock
  · obtain ⟨target, hs⟩ := Option.isSome_iff_exists.mp (htarget hid)
    rw [if_pos hid, if_pos hid, hs]
    simp [Context.opened, Context.abbreviations, hs]
  · rw [if_neg hid, if_neg hid]
    simp [Context.opened, Context.abbreviations]

theorem crosses_plain (hw : 2 ≤ b.width) {code : Nat} {ops : List Nat}
    (h : Command.Valid (outer.length + 1) b.width s (.plain code ops)) (front : List Entry) :
    (s.decoder b outer blocks front).Crosses (Command.fields b.width (.plain code ops))
      ((Command.after s (.plain code ops)).decoder b outer blocks
        (front ++ Command.entries (.plain code ops))) := by
  have hid : 3 < 2 ^ b.width := by
    have : 2 ^ 2 ≤ 2 ^ b.width := Nat.pow_le_pow_right (by decide) hw
    omega
  simp only [Command.Valid] at h
  obtain ⟨hcode, hlength, hops⟩ := h
  rw [← record_decoder]
  exact crosses_entry (b := s.opened b front) hid fun start =>
    (Record.reads_record hcode hlength hops).map _

theorem crosses_define (hw : 2 ≤ b.width) {os : List DeclaredOperand} {a : Abbreviation}
    (h : Command.Valid (outer.length + 1) b.width s (.define os a)) (front : List Entry) :
    (s.decoder b outer blocks front).Crosses (Command.fields b.width (.define os a))
      ((Command.after s (.define os a)).decoder b outer blocks
        (front ++ Command.entries (.define os a))) := by
  have hid : 2 < 2 ^ b.width := by
    have : 2 ^ 2 ≤ 2 ^ b.width := Nat.pow_le_pow_right (by decide) hw
    omega
  simp only [Command.Valid] at h
  refine crosses_entry (b := s.opened b front) hid fun start => h.1.reads.last ?_
  rw [define_decoder front start os h.2, Command.entries, List.append_nil]
  exact reads_pure _

theorem crosses_abbreviated {number : Nat} {a : Abbreviation} {r : Record}
    (h : Command.Valid (outer.length + 1) b.width s (.abbreviated number a r))
    (front : List Entry) :
    (s.decoder b outer blocks front).Crosses (Command.fields b.width (.abbreviated number a r))
      ((Command.after s (.abbreviated number a r)).decoder b outer blocks
        (front ++ Command.entries (.abbreviated number a r))) := by
  simp only [Command.Valid] at h
  obtain ⟨hid, ha, hr⟩ := h
  have ha' : (s.opened b front).abbreviations[number]? = some a := ha
  refine crosses_entry (b := s.opened b front) hid fun start => ?_
  simp only [entry, ha', Command.after, Command.entries, Context.decoder, ← Context.push_opened]
  exact hr.reads.map fun r =>
    Decoder.mk s.announced ((s.opened b front).push (.record r) :: outer) blocks

end Decoder

/-! ## Blocks -/

theorem Command.after_id (s : Context) (c : Command) : (c.after s).id = s.id := by
  cases c with
  | plain code ops =>
    rw [after]
    split <;> rfl
  | define os a =>
    rw [after]
    split <;> rfl
  | abbreviated | block => rfl

theorem Command.listAfter_id : ∀ (s : Context) (cs : List Command), (listAfter s cs).id = s.id
  | _, [] => rfl
  | s, c :: cs => by rw [listAfter, listAfter_id, after_id]

namespace Decoder

variable {s : Context} {b : BlockHeader} {outer : List OpenBlock} {blocks : List Block}

/-- The commands of a body are run over wherever the block that they stand in has begun. -/
def CrossesBody (announced : List (Nat × Abbreviation)) (outer : List OpenBlock)
    (blocks : List Block) (id width : Nat) (body : List Command) : Prop :=
  ∀ b : BlockHeader, b.width = width →
    ((Context.start announced id).decoder b outer blocks []).Crosses
      (Command.listFields width body)
      ((Command.listAfter (.start announced id) body).decoder b outer blocks
        (Command.listEntries body))

variable {announced : List (Nat × Abbreviation)} {id width words : Nat} {body : List Command}

/-- Where a block is entered, what has been announced for it is in force. -/
theorem enter_eq_start (announced : List (Nat × Abbreviation)) (blocks : List Block)
    (hdepth : outer.length ≤ maxDepth) (hid : id < 2 ^ 64) (hwidth : 2 ≤ width ∧ width ≤ 32)
    (hwords : words < 2 ^ 32) {fs : List Field} {position : Nat} {rest : List Bool}
    (hroom : words * 32 ≤ (Field.bits (Field.extent position
      (BlockHeader.fields id width words)) fs ++ rest).length) :
    let start := Field.extent position (BlockHeader.fields id width words)
    (Decoder.mk announced outer blocks).enter
        ⟨position, Field.bits position (BlockHeader.fields id width words ++ fs) ++ rest⟩ =
      .ok ((Context.start announced id).decoder ⟨id, width, by omega, start + words * 32⟩ outer
        blocks [], ⟨start, Field.bits start fs ++ rest⟩) := by
  have henter := enter_header ⟨announced, outer, blocks⟩ hdepth hid hwidth hwords fs position rest
  dsimp only at henter
  rw [if_neg (Nat.not_lt.mpr hroom)] at henter
  simp only [Context.decoder, Context.opened, Context.start, Context.abbreviations,
    List.append_nil]
  exact henter

/-- The end of a block leads out of it. -/
theorem run_endBlock_eq (s : Context) (outer : List OpenBlock) (blocks : List Block)
    (front : List Entry) {position : Nat}
    (hfinish : Field.extent position (Item.endBlock b.width) = b.finish) (rest : List Bool) :
    (s.decoder b outer blocks front).run
        ⟨position, Field.bits position (Item.endBlock b.width) ++ rest⟩ =
      (leaving s.announced outer blocks s.id front).run
        ⟨Field.extent position (Item.endBlock b.width), rest⟩ := by
  refine (run_endBlock (b := s.opened b front) position rest).trans ?_
  show (if Field.extent position (Item.endBlock b.width) = b.finish then _ else _) = _
  rw [if_pos hfinish, close_eq_leaving]
  show (leaving s.announced outer blocks s.id front.reverse.reverse).run _ = _
  rw [List.reverse_reverse]
  rfl

/-- A body leads out of its block, if the block ends where its header says. -/
theorem run_ended (hbody : CrossesBody announced outer blocks id width body)
    (hwidth : b.width = width) {start : Nat} (hstart : start % 32 = 0)
    (hfinish : b.finish = start + Field.extent 0 (Command.ended width body)) (rest : List Bool) :
    ((Context.start announced id).decoder b outer blocks []).run
        ⟨start, Field.bits start (Command.ended width body) ++ rest⟩ =
      (leaving (Command.listAfter (.start announced id) body).announced outer blocks id
        (Command.listEntries body)).run
          ⟨start + Field.extent 0 (Command.ended width body), rest⟩ := by
  subst hwidth
  have hextent : Field.extent (Field.extent start (Command.listFields b.width body))
      (Item.endBlock b.width) = start + Field.extent 0 (Command.ended b.width body) := by
    rw [← Field.extent_append]
    exact Field.extent_add hstart 0 _
  have hend := run_endBlock_eq (Command.listAfter (.start announced id) body) outer blocks
    (Command.listEntries body) (hextent.trans hfinish.symm) rest
  rw [Command.listAfter_id, hextent] at hend
  rw [Command.ended, Field.bits_append, List.append_assoc, hbody b rfl]
  exact hend

/-- A block is read as a whole. -/
theorem runAfter_enter_block (hdepth : outer.length ≤ maxDepth) (hid : id < 2 ^ 64)
    (hwidth : 2 ≤ width ∧ width ≤ 32)
    (hsize : Field.extent 0 (Command.ended width body) / 32 < 2 ^ 32)
    (hbody : CrossesBody announced outer blocks id width body) (position : Nat)
    (rest : List Bool) :
    runAfter (Decoder.mk announced outer blocks).enter
        ⟨position, Field.bits position (Command.blockFields id width body) ++ rest⟩ =
      (leaving (Command.listAfter (.start announced id) body).announced outer blocks id
        (Command.listEntries body)).run
          ⟨Field.extent position (Command.blockFields id width body), rest⟩ := by
  have hwords : Item.lengthWord (Command.ended width body) * 32 =
      Field.extent 0 (Command.ended width body) :=
    (Item.lengthWord_ended_iff width (Command.listFields width body)).mpr hsize
  have hstart := BlockHeader.extent_mod position id width
    (Item.lengthWord (Command.ended width body))
  have hextent : Field.extent position (Command.blockFields id width body) =
      Field.extent position (BlockHeader.fields id width
        (Item.lengthWord (Command.ended width body))) +
          Field.extent 0 (Command.ended width body) := by
    rw [Command.blockFields, Field.extent_append]
    exact Field.extent_add hstart 0 _
  have hroom := Field.extent_eq (Field.extent position (BlockHeader.fields id width
    (Item.lengthWord (Command.ended width body)))) (Command.ended width body)
  rw [← Field.extent_append, ← Command.blockFields, hextent, ← hwords] at hroom
  have hroom' : Item.lengthWord (Command.ended width body) * 32 ≤ (Field.bits (Field.extent position
      (BlockHeader.fields id width (Item.lengthWord (Command.ended width body))))
        (Command.ended width body) ++ rest).length := by
    rw [List.length_append]
    omega
  have henter := enter_eq_start announced blocks hdepth hid hwidth (Item.lengthWord_lt _) hroom'
  dsimp only at henter
  rw [Command.blockFields, runAfter_ok henter, ← Command.blockFields, hextent]
  exact run_ended hbody rfl hstart (congrArg _ hwords) rest

theorem leaving_decoder (s : Context) (b : BlockHeader) (outer : List OpenBlock)
    (blocks : List Block) (front : List Entry) (id width : Nat) (body : List Command) :
    leaving (Command.listAfter (.start s.announced id) body).announced (s.opened b front :: outer)
        blocks id (Command.listEntries body) =
      (Command.after s (.block id width body)).decoder b outer blocks
        (front ++ Command.entries (.block id width body)) := by
  rw [leaving, Command.after, Command.entries]
  split
  · rw [List.append_nil]
    rfl
  · rw [Context.push_opened]
    rfl

theorem crosses_block (hw : 2 ≤ b.width) (hdepth : outer.length + 1 ≤ maxDepth)
    (hid : id < 2 ^ 64) (hwidth : 2 ≤ width ∧ width ≤ 32)
    (hsize : Field.extent 0 (Command.ended width body) / 32 < 2 ^ 32) (front : List Entry)
    (hbody : CrossesBody s.announced (s.opened b front :: outer) blocks id width body) :
    (s.decoder b outer blocks front).Crosses (Command.fields b.width (.block id width body))
      ((Command.after s (.block id width body)).decoder b outer blocks
        (front ++ Command.entries (.block id width body))) := by
  have hone : 1 < 2 ^ b.width := by
    have : 2 ^ 2 ≤ 2 ^ b.width := Nat.pow_le_pow_right (by decide) hw
    omega
  intro position rest
  rw [Command.fields_block, ← leaving_decoder]
  refine (run_inside (b := s.opened b front) hone _ _ _).trans ?_
  have hopen : (s.opened b front :: outer).length ≤ maxDepth := hdepth
  exact runAfter_enter_block hopen hid hwidth hsize hbody _ rest

mutual

/-- Every command that is valid at a place is run over. -/
theorem crosses_fields : ∀ (c : Command) {s : Context} {b : BlockHeader} {outer : List OpenBlock}
    {blocks : List Block} (front : List Entry), 2 ≤ b.width →
    c.Valid (outer.length + 1) b.width s →
    (s.decoder b outer blocks front).Crosses (c.fields b.width)
      ((c.after s).decoder b outer blocks (front ++ c.entries))
  | .plain _ _, _, _, _, _, front, hw, h => crosses_plain hw h front
  | .define _ _, _, _, _, _, front, hw, h => crosses_define hw h front
  | .abbreviated _ _ _, _, _, _, _, front, _, h => crosses_abbreviated h front
  | .block id width body, s, b, outer, blocks, front, hw, h => by
    simp only [Command.Valid] at h
    obtain ⟨hdepth, hid, hwidth, hsize, hbody⟩ := h
    refine crosses_block hw hdepth hid hwidth hsize front ?_
    rintro b' rfl
    exact crosses_listFields body [] hwidth.1 hbody

/-- Every list of commands that is valid at a place is run over. -/
theorem crosses_listFields : ∀ (cs : List Command) {s : Context} {b : BlockHeader}
    {outer : List OpenBlock} {blocks : List Block} (front : List Entry), 2 ≤ b.width →
    Command.ListValid (outer.length + 1) b.width s cs →
    (s.decoder b outer blocks front).Crosses (Command.listFields b.width cs)
      ((Command.listAfter s cs).decoder b outer blocks (front ++ Command.listEntries cs))
  | [], _, _, _, _, front, _, _ => by
    rw [Command.listEntries, List.append_nil]
    exact crosses_nil _
  | c :: cs, s, b, outer, blocks, front, hw, h => by
    simp only [Command.ListValid] at h
    have hrest : ((c.after s).decoder b outer blocks (front ++ c.entries)).Crosses
        (Command.listFields b.width cs) _ := crosses_listFields cs _ hw h.2
    rw [List.append_assoc] at hrest
    exact (crosses_fields c front hw h.1).append hrest

end

end Decoder

/-! ## Spelling records out -/

mutual

/-- An entry without the blobs in it. -/
def Entry.withoutBlobs : Entry → Entry
  | record r => record { r with blob := none }
  | block id entries => block id (listWithoutBlobs entries)

@[inherit_doc Entry.withoutBlobs]
def Entry.listWithoutBlobs : List Entry → List Entry
  | [] => []
  | e :: es => e.withoutBlobs :: listWithoutBlobs es

end

theorem Entry.listWithoutBlobs_append (es es' : List Entry) :
    listWithoutBlobs (es ++ es') = listWithoutBlobs es ++ listWithoutBlobs es' := by
  induction es with
  | nil => rfl
  | cons e es ih => rw [List.cons_append, listWithoutBlobs, listWithoutBlobs, ih, List.cons_append]

namespace Command

mutual

/-- A command in a block of the given kind with its records spelled out. A record that names a
kind of block stays as it is, since only a record that is spelled out is taken for one. -/
def spelledOut (outer : Nat) : Command → Command
  | abbreviated number a r =>
    if outer = announcingBlock ∧ r.code = 1 then abbreviated number a r
    else plain r.code r.ops
  | block id width body => block id width (listSpelledOut id body)
  | plain code ops => plain code ops
  | define os a => define os a

@[inherit_doc spelledOut]
def listSpelledOut (outer : Nat) : List Command → List Command
  | [] => []
  | c :: cs => c.spelledOut outer :: listSpelledOut outer cs

end

mutual

/-- Nothing else is in force behind records that are spelled out. -/
theorem after_spelledOut : ∀ (c : Command) (s : Context), after s (c.spelledOut s.id) = after s c
  | plain _ _, _ => rfl
  | define _ _, _ => rfl
  | abbreviated number a r, s => by
    rw [spelledOut]
    split
    · rfl
    · rename_i h
      rw [after, after, if_neg h]
  | block id width body, s => by
    rw [spelledOut, after, after]
    have hbody := listAfter_spelledOut body (.start s.announced id)
    rw [show (Context.start s.announced id).id = id from rfl] at hbody
    rw [hbody]

theorem listAfter_spelledOut : ∀ (cs : List Command) (s : Context),
    listAfter s (listSpelledOut s.id cs) = listAfter s cs
  | [], _ => rfl
  | c :: cs, s => by
    have hrest := listAfter_spelledOut cs (after s c)
    rw [after_id] at hrest
    rw [listSpelledOut, listAfter, listAfter, after_spelledOut, hrest]

end

mutual

/-- The entries of records that are spelled out differ in blobs only. -/
theorem entries_spelledOut : ∀ (outer : Nat) (c : Command),
    Entry.listWithoutBlobs (c.spelledOut outer).entries = Entry.listWithoutBlobs c.entries
  | _, plain _ _ => rfl
  | _, define _ _ => rfl
  | outer, abbreviated number a r => by
    rw [spelledOut]
    split <;> rfl
  | outer, block id width body => by
    have hbody := listEntries_spelledOut id body
    rw [spelledOut, entries, entries]
    split
    · rfl
    · simp only [Entry.listWithoutBlobs, Entry.withoutBlobs, hbody]

theorem listEntries_spelledOut : ∀ (outer : Nat) (cs : List Command),
    Entry.listWithoutBlobs (listEntries (listSpelledOut outer cs)) =
      Entry.listWithoutBlobs (listEntries cs)
  | _, [] => rfl
  | outer, c :: cs => by
    rw [listSpelledOut, listEntries, listEntries, Entry.listWithoutBlobs_append,
      Entry.listWithoutBlobs_append, entries_spelledOut outer c, listEntries_spelledOut outer cs]

end

end Command

namespace Decoder

variable {announced : List (Nat × Abbreviation)} {outer : List OpenBlock} {blocks : List Block}
  {id width words : Nat} {cs : List Command}

/-- From the start of a block on, commands that are valid lead to what is in force behind them and
to the entries that they mean. -/
theorem runAfter_enter_commands (blocks : List Block) (hdepth : outer.length ≤ maxDepth)
    (hid : id < 2 ^ 64) (hwidth : 2 ≤ width ∧ width ≤ 32) (hwords : words < 2 ^ 32)
    (hcs : Command.ListValid (outer.length + 1) width (.start announced id) cs) {position : Nat}
    {rest : List Bool}
    (hroom : words * 32 ≤ (Field.bits (Field.extent position
      (BlockHeader.fields id width words)) (Command.listFields width cs) ++ rest).length) :
    let fs := BlockHeader.fields id width words ++ Command.listFields width cs
    runAfter (Decoder.mk announced outer blocks).enter
        ⟨position, Field.bits position fs ++ rest⟩ =
      ((Command.listAfter (.start announced id) cs).decoder
        ⟨id, width, by omega, Field.extent position (BlockHeader.fields id width words) + words * 32⟩
        outer blocks (Command.listEntries cs)).run ⟨Field.extent position fs, rest⟩ := by
  have henter := enter_eq_start announced blocks hdepth hid hwidth hwords hroom
  dsimp only at henter ⊢
  rw [runAfter_ok henter, Field.extent_append]
  exact crosses_listFields cs (b := ⟨id, width, by omega, _⟩) [] hwidth.1 hcs _ rest

/-- Inside any block, from its start on, the decoder follows commands to what they mean: the
entries that they add, behind the last of their bits, and what is in force there. The same is
in force behind the same commands with their records spelled out, and the same has been read
apart from blobs. -/
theorem run_spelledOut (hdepth : outer.length ≤ maxDepth) (hid : id < 2 ^ 64)
    (hwidth : 2 ≤ width ∧ width ≤ 32) (hwords : words < 2 ^ 32)
    (hcs : Command.ListValid (outer.length + 1) width (.start announced id) cs)
    (hplain : Command.ListValid (outer.length + 1) width (.start announced id)
      (Command.listSpelledOut id cs)) (position : Nat) :
    let header := BlockHeader.fields id width words
    let start := Field.extent position header
    let behind := (Command.listAfter (.start announced id) cs).decoder
      ⟨id, width, by omega, start + words * 32⟩ outer blocks
    (∀ rest, words * 32 ≤ (Field.bits start (Command.listFields width cs) ++ rest).length →
      runAfter (Decoder.mk announced outer blocks).enter
          ⟨position, Field.bits position (header ++ Command.listFields width cs) ++ rest⟩ =
        (behind (Command.listEntries cs)).run
          ⟨Field.extent position (header ++ Command.listFields width cs), rest⟩) ∧
    (∀ rest, words * 32 ≤ (Field.bits start
        (Command.listFields width (Command.listSpelledOut id cs)) ++ rest).length →
      runAfter (Decoder.mk announced outer blocks).enter
          ⟨position, Field.bits position (header ++
            Command.listFields width (Command.listSpelledOut id cs)) ++ rest⟩ =
        (behind (Command.listEntries (Command.listSpelledOut id cs))).run
          ⟨Field.extent position (header ++
            Command.listFields width (Command.listSpelledOut id cs)), rest⟩) ∧
    Entry.listWithoutBlobs (Command.listEntries (Command.listSpelledOut id cs)) =
      Entry.listWithoutBlobs (Command.listEntries cs) := by
  have hafter : Command.listAfter (.start announced id) (Command.listSpelledOut id cs) =
      Command.listAfter (.start announced id) cs :=
    Command.listAfter_spelledOut cs (.start announced id)
  refine ⟨fun rest hroom => runAfter_enter_commands blocks hdepth hid hwidth hwords hcs hroom,
    fun rest hroom => ?_, Command.listEntries_spelledOut id cs⟩
  have hrun := runAfter_enter_commands blocks hdepth hid hwidth hwords hplain hroom
  rwa [hafter] at hrun

/-- Records of a code and a name. -/
def namingLayout : Abbreviation := ⟨[.literal 4, .fixed 64], .array .character⟩

/-- Records of two numbers, of which the second is always zero, and a blob. -/
def attachingLayout : Abbreviation := ⟨[.vbr .six, .literal 0], .blob⟩

/-- Commands for a block of kind 8 for which the first layout has been announced. They define the
second one, and announce it for blocks of kind 9, of which one follows. -/
def layoutsInUse : List Command :=
  [.abbreviated 0 namingLayout ⟨4, [2 ^ 63, 'Z'.toNat, '_'.toNat], none⟩,
    .define [.vbr 6, .fixed 0, .blob] attachingLayout,
    .abbreviated 1 attachingLayout ⟨1000, [0], some [1, 2, 3]⟩,
    .block announcingBlock 3 [.plain 1 [9], .define [.vbr 6, .vbr 0, .blob] attachingLayout],
    .block 9 3 [.abbreviated 0 attachingLayout ⟨7, [0], some []⟩]]

theorem declaredBy_attachingLayout (width : DeclaredOperand)
    (h : width = .fixed 0 ∨ width = .vbr 0) :
    attachingLayout.DeclaredBy [.vbr 6, width, .blob] := by
  rcases h with rfl | rfl <;> exact ⟨by decide, by decide, by decide, rfl⟩

theorem listValid_layoutsInUse :
    Command.ListValid 1 3 (.start [(8, namingLayout)] 8) layoutsInUse := by
  have hattaching := declaredBy_attachingLayout
  refine ⟨⟨by decide, rfl, by decide⟩, ⟨hattaching _ (.inl rfl), nofun⟩,
    ⟨by decide, rfl, by decide⟩, ⟨by decide, by decide, by decide, by decide +kernel, ?_⟩,
    ⟨by decide, by decide, by decide, by decide +kernel, ?_⟩, trivial⟩
  · exact ⟨⟨by decide, by decide, by decide⟩, ⟨hattaching _ (.inr rfl), fun _ => rfl⟩, trivial⟩
  · exact ⟨⟨by decide, rfl, by decide⟩, trivial⟩

theorem listValid_listSpelledOut :
    Command.ListValid 1 3 (.start [(8, namingLayout)] 8)
      (Command.listSpelledOut 8 layoutsInUse) := by
  have hattaching := declaredBy_attachingLayout
  refine ⟨⟨by decide, by decide, by decide⟩, ⟨hattaching _ (.inl rfl), nofun⟩,
    ⟨by decide, by decide, by decide⟩, ⟨by decide, by decide, by decide, by decide +kernel, ?_⟩,
    ⟨by decide, by decide, by decide, by decide +kernel, ?_⟩, trivial⟩
  · exact ⟨⟨by decide, by decide, by decide⟩, ⟨hattaching _ (.inr rfl), fun _ => rfl⟩, trivial⟩
  · exact ⟨⟨by decide, by decide, by decide⟩, trivial⟩

theorem run_spelledOut_layoutsInUse :
    Command.ListValid 1 3 (.start [(8, namingLayout)] 8) layoutsInUse ∧
    Command.ListValid 1 3 (.start [(8, namingLayout)] 8)
      (Command.listSpelledOut 8 layoutsInUse) ∧
    let header := BlockHeader.fields 8 3 1
    let start := Field.extent 34 header
    let behind := (Command.listAfter (.start [(8, namingLayout)] 8) layoutsInUse).decoder
      ⟨8, 3, by decide, start + 1 * 32⟩ [] []
    (∀ rest, 1 * 32 ≤ (Field.bits start (Command.listFields 3 layoutsInUse) ++ rest).length →
      runAfter (Decoder.mk [(8, namingLayout)] [] []).enter
          ⟨34, Field.bits 34 (header ++ Command.listFields 3 layoutsInUse) ++ rest⟩ =
        (behind (Command.listEntries layoutsInUse)).run
          ⟨Field.extent 34 (header ++ Command.listFields 3 layoutsInUse), rest⟩) ∧
    (∀ rest, 1 * 32 ≤ (Field.bits start
        (Command.listFields 3 (Command.listSpelledOut 8 layoutsInUse)) ++ rest).length →
      runAfter (Decoder.mk [(8, namingLayout)] [] []).enter
          ⟨34, Field.bits 34 (header ++
            Command.listFields 3 (Command.listSpelledOut 8 layoutsInUse)) ++ rest⟩ =
        (behind (Command.listEntries (Command.listSpelledOut 8 layoutsInUse))).run
          ⟨Field.extent 34 (header ++
            Command.listFields 3 (Command.listSpelledOut 8 layoutsInUse)), rest⟩) ∧
    Entry.listWithoutBlobs (Command.listEntries (Command.listSpelledOut 8 layoutsInUse)) =
      Entry.listWithoutBlobs (Command.listEntries layoutsInUse) := by
  have hopen : ([] : List OpenBlock).length ≤ maxDepth := Nat.zero_le _
  exact ⟨listValid_layoutsInUse, listValid_listSpelledOut,
    run_spelledOut hopen (by decide) (by decide) (by decide) listValid_layoutsInUse
      listValid_listSpelledOut 34⟩

end Decoder

/-- A stream in which a record with code 1 is laid out as the block before has announced it for
blocks 0. It names the kind of block that the next definition is for. -/
def namedTwice (naming : Command) : List UInt8 :=
  pack (magicFields [0x42, 0x43, 0xc0, 0xde] ++ Command.listFields topLevelWidth
    [.block announcingBlock 3 [.plain 1 [announcingBlock],
      .define [.literal 1, .fixed 4] ⟨[.literal 1, .fixed 4], .none⟩],
    .block announcingBlock 3 [naming, .define [.literal 2] ⟨[.literal 2], .none⟩]])

/-- Spelled out, the second name is heeded. Abbreviated it is not, and what follows is malformed. -/
theorem decode_namedTwice :
    Abbreviation.Fits ⟨[.literal 1, .fixed 4], .none⟩ ⟨1, [8], none⟩ ∧
    (decode [0x42, 0x43, 0xc0, 0xde] (namedTwice (.plain 1 [8]))).map List.length = .ok 0 ∧
    (decode [0x42, 0x43, 0xc0, 0xde]
        (namedTwice (.abbreviated 0 ⟨[.literal 1, .fixed 4], .none⟩ ⟨1, [8], none⟩))).map
          List.length = .error (.malformed 231 .noTargetBlock) := by
  refine ⟨by decide, ?_, ?_⟩
  · decide +kernel
  · decide +kernel

end CircuitQir.Bitstream
