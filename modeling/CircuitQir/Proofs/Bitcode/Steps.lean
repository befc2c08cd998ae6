import CircuitQir.Proofs.Bitcode.Bodies
/-!
# What the reader does with one entry

The reader takes the entries of the module block, and those of a body, one after the other. Here
it is said once what a single entry can do, to the tables (`Tables.Takes`) and to a body
(`Body.Takes`), so that whoever shows that something stays true while a file is read has a case
for every effect and need not look into the reader again.
-/

namespace CircuitQir.Bitcode

open Ir Bitstream

variable {t t' : Tables}

/-! ## Constants and calls -/

/-- Constants are put behind the values that are known. -/
theorem exists_of_readConstants : ∀ {rs : List Record} {current : Option TypeEntry}
    {values values' : List Value}, readConstants t values current rs = .ok values' →
    ∃ cs : List Constant, values' = values ++ cs.map .constant
  | [], _, values, values', h => by
    obtain rfl := Except.ok.inj h
    exact ⟨[], (List.append_nil values).symm⟩
  | r :: rs, current, values, values', h => by
    unfold readConstants at h
    split at h
    · obtain ⟨type, -, h⟩ := bind_eq_ok h
      exact exists_of_readConstants h
    · obtain ⟨c, -, h⟩ := bind_eq_ok h
      obtain ⟨cs, rfl⟩ := exists_of_readConstants h
      exact ⟨c :: cs, List.append_assoc values [.constant c] _⟩

/-- A call names a function that one of the values stands for. -/
theorem exists_of_callOf {values : List Value} {ops : List Nat} {i : Instruction} {yields : Bool}
    (h : callOf t values ops = .ok (i, yields)) :
    ∃ f args, .function f ∈ values ∧ i = .call ((t.functions.map (·.name)).getD f "") args := by
  unfold callOf at h
  split at h
  · dsimp only at h
    split at h
    · cases h
    · split at h
      · split at h
        · cases h
        · split at h
          · rename_i f hf
            obtain ⟨⟨result, params⟩, -, h⟩ := bind_eq_ok h
            dsimp only at h
            split at h
            · cases h
            · obtain ⟨args, -, h⟩ := bind_eq_ok h
              obtain ⟨rfl, -⟩ := Prod.mk.inj (Except.ok.inj h)
              exact ⟨f, args, List.mem_of_getElem? hf, rfl⟩
          · cases h
      · cases h
  · cases h

/-! ## Bodies -/

/-- An instruction goes to the end of the current block, and a return ends that block. -/
theorem Body.exists_of_append {b b' : Body} {i : Instruction} (h : b.append i = .ok b') :
    ∃ front label is rest, b.blocks = front ++ ⟨label, is⟩ :: rest ∧ b.current = front.length ∧
      b' = ⟨b.values, front ++ ⟨label, is ++ [i]⟩ :: rest,
        if i.isTerminator then front.length + 1 else front.length⟩ := by
  obtain ⟨values, blocks, current⟩ := b
  by_cases hlt : current < blocks.length
  · have hlength : (blocks.take current).length = current := by
      rw [List.length_take, Nat.min_eq_left (Nat.le_of_lt hlt)]
    have hblocks : blocks = blocks.take current ++ ⟨blocks[current].label,
        blocks[current].instructions⟩ :: blocks.drop (current + 1) := by
      rw [← List.drop_eq_getElem_cons hlt, List.take_append_drop]
    refine ⟨_, _, _, _, hblocks, hlength.symm, ?_⟩
    have happend := append_eq values (blocks.take current) (blocks.drop (current + 1))
      blocks[current].label blocks[current].instructions i
    rw [← hblocks, hlength] at happend
    rw [hlength]
    exact Except.ok.inj (h.symm.trans happend)
  · rw [append, if_neg hlt] at h
    cases h

/-- What an entry of a body does to what has been read of the body. -/
inductive Body.Takes (t : Tables) (b : Body) : Body → Prop
  /-- A kind of block that is passed over. -/
  | nothing : Takes t b b
  /-- Constants of the body's own. -/
  | constants (cs : List Constant) : Takes t b { b with values := b.values ++ cs.map .constant }
  /-- How many blocks there are. All are empty again. -/
  | blocks (count : Nat) (label : Nat → String) :
    Takes t b { b with blocks := (List.range count).map fun i => ⟨label i, []⟩ }
  | ret {b' : Body} (h : b.append .ret = .ok b') : Takes t b b'
  /-- A call, of a function that one of the values stands for. -/
  | call {b' : Body} (f : Nat) (args : List Operand) (yields : Bool)
    (hf : .function f ∈ b.values)
    (h : { b with values := if yields then b.values ++ [Value.other] else b.values }.append
      (.call ((t.functions.map FunctionEntry.name).getD f "") args) = .ok b') : Takes t b b'

theorem Body.takes_of_read {labels : List (Nat × String)} {size : Nat} {b b' : Body} {e : Entry}
    (h : b.read t labels size e = .ok b') : b.Takes t b' := by
  unfold Body.read at h
  split at h
  · obtain ⟨values, hvalues, h⟩ := bind_eq_ok h
    obtain rfl := Except.ok.inj h
    obtain ⟨cs, rfl⟩ := exists_of_readConstants hvalues
    exact .constants cs
  · obtain rfl := Except.ok.inj h
    exact .nothing
  · split at h
    · dsimp only at h
      split at h
      · cases h
      · obtain rfl := Except.ok.inj h
        exact .blocks _ _
    · exact .ret h
    · obtain ⟨⟨i, yields⟩, hcall, h⟩ := bind_eq_ok h
      obtain ⟨f, args, hf, rfl⟩ := exists_of_callOf hcall
      exact .call f args yields hf h
    · cases h

/-- What a body comes to is read from its entries one after the other, for the first function that
has no body yet. -/
theorem exists_of_bodyOf {body : Bitstream.Block} {blocks : List Ir.Block}
    (h : bodyOf t body = .ok blocks) :
    ∃ f labels result params b, t.defined[t.bodies.length]? = some f ∧
      t.signature f.type = .ok (result, params) ∧
      body.entries.foldlM (Body.read t labels body.entries.length)
        ⟨t.values ++ params.map (fun _ => Value.other), [], 0⟩ = .ok b ∧ b.blocks = blocks := by
  unfold bodyOf at h
  obtain ⟨labels, -, h⟩ := bind_eq_ok h
  split at h
  · cases h
  · rename_i f hf
    obtain ⟨⟨result, params⟩, hsignature, h⟩ := bind_eq_ok h
    obtain ⟨b, hb, h⟩ := bind_eq_ok h
    exact ⟨f, labels, result, params, b, hf, hsignature, hb, Except.ok.inj h⟩

/-! ## Tables -/

namespace Tables

/-- What an entry of the module block does to the tables. -/
inductive Takes (t : Tables) : Entry → Tables → Prop
  /-- A kind of entry that is passed over, or the number of the format. -/
  | nothing {e : Entry} (he : ∀ entries, e ≠ .block BlockId.function entries) : Takes t e t
  | sourceName {r : Record} (s : String) : Takes t (.record r) { t with sourceName := s }
  /-- A function, and the value that stands for it. -/
  | function {r : Record} (f : FunctionEntry) (list : Nat)
    (hattributes : t.attributes list = .ok f.attributes) :
    Takes t (.record r)
      { t with
        values := t.values ++ [.function t.functions.length]
        functions := t.functions ++ [f] }
  | groups {entries : List Entry} (groups : List (Nat × AttributeGroup))
    (h : ∀ g ∈ groups, ∃ ops, groupOf ops = .ok g) :
    Takes t (.block BlockId.attributeGroups entries) { t with groups := t.groups ++ groups }
  | lists {entries : List Entry} (lists : List (List Nat)) :
    Takes t (.block BlockId.attributeLists entries)
      { t with attributeLists := t.attributeLists ++ lists }
  | types {entries : List Entry} (types : List TypeEntry) :
    Takes t (.block BlockId.types entries) { t with types := t.types ++ types }
  | constants {entries : List Entry} (cs : List Constant) :
    Takes t (.block BlockId.constants entries) { t with values := t.values ++ cs.map .constant }
  | flags {entries : List Entry} (flags : List ModuleFlag) :
    Takes t (.block BlockId.metadata entries) { t with flags := flags }
  /-- The body of the first function that has none yet. -/
  | body {entries : List Entry} (blocks : List Ir.Block)
    (h : bodyOf t ⟨BlockId.function, entries⟩ = .ok blocks) :
    Takes t (.block BlockId.function entries) { t with bodies := t.bodies ++ [blocks] }

theorem takes_of_readRecord {r : Record} (h : t.readRecord r = .ok t') : t.Takes (.record r) t' := by
  have hrecord : ∀ entries, Entry.record r ≠ .block BlockId.function entries := by simp
  unfold readRecord at h
  split at h
  · dsimp only at h
    split at h
    · obtain rfl := Except.ok.inj h
      exact .nothing hrecord
    · cases h
  · obtain ⟨name, -, h⟩ := bind_eq_ok h
    obtain rfl := Except.ok.inj h
    exact .sourceName name
  · split at h
    · obtain ⟨name, -, h⟩ := bind_eq_ok h
      obtain ⟨type, -, h⟩ := bind_eq_ok h
      split at h
      · obtain ⟨id, hid, h⟩ := bind_eq_ok h
        obtain rfl := Except.ok.inj h
        exact .function ⟨_, _, _, id⟩ _ hid
      · cases h
    · cases h
  · obtain rfl := Except.ok.inj h
    exact .nothing hrecord

theorem takes_of_readBlock {id : Nat} {entries : List Entry}
    (h : t.readBlock ⟨id, entries⟩ = .ok t') : t.Takes (.block id entries) t' := by
  unfold readBlock at h
  split at h
  · rename_i hid
    obtain rfl : id = BlockId.attributeGroups := hid
    obtain ⟨groups, hgroups, h⟩ := bind_eq_ok h
    obtain rfl := Except.ok.inj h
    refine .groups groups fun g hg => ?_
    obtain ⟨r, -, hr⟩ := exists_of_mapM hgroups g hg
    exact ⟨r.ops, hr⟩
  · rename_i hid
    obtain rfl : id = BlockId.attributeLists := hid
    obtain rfl := Except.ok.inj h
    exact .lists _
  · rename_i hid
    obtain rfl : id = BlockId.types := hid
    obtain ⟨types, -, h⟩ := bind_eq_ok h
    obtain rfl := Except.ok.inj h
    exact .types _
  · rename_i hid
    obtain rfl : id = BlockId.constants := hid
    obtain ⟨values, hvalues, h⟩ := bind_eq_ok h
    obtain rfl := Except.ok.inj h
    obtain ⟨cs, rfl⟩ := exists_of_readConstants hvalues
    exact .constants cs
  · rename_i hid
    obtain rfl : id = BlockId.metadata := hid
    obtain ⟨flags, -, h⟩ := bind_eq_ok h
    obtain rfl := Except.ok.inj h
    exact .flags flags
  · rename_i hid
    obtain rfl : id = BlockId.function := hid
    obtain ⟨blocks, hblocks, h⟩ := bind_eq_ok h
    obtain rfl := Except.ok.inj h
    exact .body blocks hblocks
  · rename_i hfunction
    obtain rfl := Except.ok.inj h
    refine .nothing fun entries' heq => hfunction ?_
    exact (Entry.block.inj heq).1

theorem takes_of_read {e : Entry} (h : t.read e = .ok t') : t.Takes e t' := by
  cases e with
  | record r => exact takes_of_readRecord h
  | block id entries => exact takes_of_readBlock h

end Tables

end CircuitQir.Bitcode
