import CircuitQir.Bitcode.Decoding
import CircuitQir.Bitcode.Encoding
import CircuitQir.Proofs.Bitcode.Calls
/-!
# Reading function bodies back

The record of a body gives its instructions in one go, and where a block ends is found again from
the returns. So the blocks of a function come back if its instructions lie in them as the reader
puts them there (`Filled`), and if the body has as many entries as it declares blocks, which the
reader insists on (`Function.BlocksFit`). `Body.take` is what the reader does with an instruction
once its record is understood: reading the records of instructions is taking the instructions, as
long as all calls fit (`foldlM_instructionItems`).
-/

namespace CircuitQir.Ir

/-- A return stands only at the end of a block, and every block but the last has one there. -/
structure Function.Shaped (f : Function) : Prop where
  ret_last : ∀ b ∈ f.blocks, .ret ∉ b.instructions.dropLast
  ends_ret : ∀ b ∈ f.blocks.dropLast, b.instructions.getLast? = some .ret

/-- How instructions lie in blocks that have been filled one after the other: a return ends its
block, and blocks behind one that no return has ended are empty. -/
def Filled : List (List Instruction) → Prop
  | [] => True
  | is :: rest =>
    .ret ∉ is.dropLast ∧ if is.getLast? = some .ret then Filled rest else ∀ js ∈ rest, js = []

theorem filled_of_empty : ∀ {parts : List (List Instruction)}, (∀ is ∈ parts, is = []) →
    Filled parts
  | [], _ => trivial
  | _ :: _, h => by
    obtain ⟨rfl, hrest⟩ := List.forall_mem_cons.mp h
    exact ⟨List.not_mem_nil, hrest⟩

theorem Function.Shaped.filled {f : Function} (h : f.Shaped) :
    Filled (f.blocks.map (·.instructions)) := by
  obtain ⟨hlast, hends⟩ := h
  generalize f.blocks = bs at hlast hends
  induction bs with
  | nil => trivial
  | cons b bs ih =>
    obtain ⟨hb, hlast⟩ := List.forall_mem_cons.mp hlast
    cases bs with
    | nil => exact ⟨hb, by split <;> [trivial; exact nofun]⟩
    | cons c bs =>
      rw [List.dropLast_cons_cons] at hends
      obtain ⟨hret, hends⟩ := List.forall_mem_cons.mp hends
      exact ⟨hb, (if_pos hret).mpr (ih hlast hends)⟩

/-- The body of the function has an entry for every block: one that counts the blocks, one for
each instruction, and one for the labels if there are any. -/
def Function.BlocksFit (f : Function) : Prop :=
  f.blocks.length ≤ 1 + (f.blocks.flatMap (·.instructions)).length +
    (f.blocks.any (!·.label.isEmpty)).toNat

instance : DecidablePred Function.BlocksFit := fun f =>
  inferInstanceAs (Decidable (f.blocks.length ≤ _))

/-- The bodies of all functions have enough entries. -/
def Module.BlocksFit (m : Module) : Prop := ∀ f ∈ m.functions, f.BlocksFit

instance (m : Module) : Decidable m.BlocksFit :=
  inferInstanceAs (Decidable (∀ f ∈ m.functions, f.BlocksFit))

/-- The body of a function can be read back as one of a module. -/
def Module.FitsBody (m : Module) (f : Function) : Prop :=
  f.BlocksFit ∧ ∀ i ∈ f.blocks.flatMap (·.instructions), m.Fits i

end CircuitQir.Ir

namespace CircuitQir.Bitcode

open Ir Bitstream

/-! ## Labels -/

/-- What `labelsOf` does with a record. -/
def addLabel (labels : List (Nat × String)) (r : Record) : Checked (List (Nat × String)) :=
  match r.ops with
  | [] => .ok labels
  | id :: name => do return (id, ← stringOf name) :: labels

/-- The label found for a block is its own, also where an empty label was left out. -/
theorem foldlM_labelItems : ∀ (bs : List Ir.Block) (index : Nat) (labels : List (Nat × String)),
    (∀ i, index ≤ i → labels.lookup i = none) →
    ∃ labels', ((Item.records (labelItems index bs)).filter (·.code = SymbolCode.block)).foldlM
        addLabel labels = .ok labels' ∧
      (∀ i < index, labels'.lookup i = labels.lookup i) ∧
      ∀ i, (labels'.lookup (index + i)).getD "" = (bs[i]?.map (·.label)).getD ""
  | [], index, labels, h => by
    refine ⟨labels, rfl, fun _ _ => rfl, fun i => ?_⟩
    rw [h _ (Nat.le_add_right _ _)]
    rfl
  | b :: bs, index, labels, h => by
    by_cases hlabel : b.label.isEmpty
    · obtain ⟨labels', hread, hbefore, hfound⟩ := foldlM_labelItems bs (index + 1) labels
        fun i hi => h i (by omega)
      refine ⟨labels', ?_, fun i hi => hbefore i (by omega), fun i => ?_⟩
      · rw [labelItems, if_pos hlabel]
        exact hread
      · cases i with
        | zero =>
          rw [Nat.add_zero, hbefore index (by omega), h index (Nat.le_refl _)]
          simpa using (String.isEmpty_iff.mp hlabel).symm
        | succ i =>
          rw [← Nat.add_assoc, Nat.add_right_comm]
          exact hfound i
    · obtain ⟨labels', hread, hbefore, hfound⟩ := foldlM_labelItems bs (index + 1)
        ((index, b.label) :: labels) fun i hi => by
          rw [List.lookup_cons, beq_eq_false_iff_ne.mpr (by omega)]
          exact h i (by omega)
      refine ⟨labels', ?_, fun i hi => ?_, fun i => ?_⟩
      · rw [labelItems, if_neg hlabel, Item.text, List.singleton_append, Item.records_record,
          List.filter_cons_of_pos (by simp), List.foldlM_cons]
        show ((do return (index, ← stringOf ((Utf8.encode b.label).map UInt8.toNat)) :: labels) >>=
          fun labels => List.foldlM addLabel labels _) = _
        rw [stringOf_encode]
        exact hread
      · rw [hbefore i (by omega), List.lookup_cons, beq_eq_false_iff_ne.mpr (by omega)]
      · cases i with
        | zero =>
          rw [Nat.add_zero, hbefore index (by omega), List.lookup_cons_self]
          rfl
        | succ i =>
          rw [← Nat.add_assoc, Nat.add_right_comm]
          exact hfound i

/-- The labels of the blocks of a function come back. -/
theorem labelsOf_labelItems (bs : List Ir.Block) :
    ∃ labels, labelsOf (Item.records (labelItems 0 bs)) = .ok labels ∧
      (List.range bs.length).map (fun i => Ir.Block.mk ((labels.lookup i).getD "") []) =
        bs.map fun b => ⟨b.label, []⟩ := by
  obtain ⟨labels, hread, -, hfound⟩ := foldlM_labelItems bs 0 [] fun _ _ => rfl
  refine ⟨labels, hread, ?_⟩
  refine List.ext_getElem (by simp) ?_
  intro i hi _
  have hi : i < bs.length := by simpa using hi
  have h := hfound i
  rw [Nat.zero_add, List.getElem?_eq_getElem hi] at h
  simp [h]

/-! ## Instructions -/

/-- Whether an instruction takes up a number. -/
def Layout.yields (l : Layout) : Instruction → Bool
  | .call callee _ => l.returnsValue callee
  | .ret => false

/-- The body after an instruction has been read. -/
def Body.take (l : Layout) (b : Body) (i : Instruction) : Checked Body :=
  { b with values := if l.yields i then b.values ++ [Value.other] else b.values }.append i

theorem Body.append_values {b b' : Body} {i : Instruction} (h : b.append i = .ok b') :
    b'.values = b.values := by
  unfold append at h
  split at h
  · cases h
    rfl
  · cases h

/-- The record of an instruction with a number. -/
def instructionRecord (l : Layout) (next : Nat) : Instruction → Record
  | .ret => ⟨FunctionCode.ret, [], none⟩
  | .call callee args => ⟨FunctionCode.call, callOps l next callee args, none⟩

theorem listEntries_instructionItems (l : Layout) (next : Nat) (i : Instruction)
    (is : List Instruction) :
    Item.listEntries [] (instructionItems l next (i :: is)) =
      .record (instructionRecord l next i) ::
        Item.listEntries [] (instructionItems l (if l.yields i then next + 1 else next) is) := by
  cases i <;> rfl

/-- Numbers go on as values do. -/
theorem Body.take_values {l : Layout} {b b' : Body} {i : Instruction} {front : List Value}
    (h : b.take l i = .ok b') (hb : front <+: b.values) :
    front <+: b'.values ∧
      b'.values.length = if l.yields i then b.values.length + 1 else b.values.length := by
  rw [append_values h]
  dsimp only
  split
  · exact ⟨hb.trans (List.prefix_append ..), List.length_append ..⟩
  · exact ⟨hb, rfl⟩

section Reading

variable {t : Tables} {m : Module} (ht : t.Knows m) (labels : List (Nat × String)) (size : Nat)
include ht

theorem read_instruction {i : Instruction} {b : Body} (hb : t.values <+: b.values)
    (hmem : i ∈ m.instructions) (hfit : m.Fits i) :
    b.read t labels size (.record (instructionRecord (.ofModule m) b.values.length i)) =
      b.take (.ofModule m) i := by
  cases i with
  | ret => rfl
  | call callee args =>
    obtain ⟨rest, hrest⟩ := hb
    have hcall := callOf_callOps ht rest hmem hfit
    rw [hrest] at hcall
    exact (bind_of_ok hcall _).trans rfl

theorem read_instruction_error {i : Instruction} {b : Body} (hb : t.values <+: b.values)
    (hfit : ¬ m.Fits i) :
    ∃ e, b.read t labels size (.record (instructionRecord (.ofModule m) b.values.length i)) =
      .error e := by
  cases i with
  | ret => exact absurd trivial hfit
  | call callee args =>
    obtain ⟨rest, hrest⟩ := hb
    obtain ⟨e, hcall⟩ := callOf_callOps_error ht rest hfit
    rw [hrest] at hcall
    exact ⟨e, bind_of_error hcall _⟩

/-- The records of instructions that fit are read as the instructions. -/
theorem foldlM_instructionItems : ∀ (is : List Instruction) {b : Body}, t.values <+: b.values →
    (∀ i ∈ is, i ∈ m.instructions ∧ m.Fits i) →
    (Item.listEntries [] (instructionItems (.ofModule m) b.values.length is)).foldlM
        (Body.read t labels size) b = is.foldlM (Body.take (.ofModule m)) b
  | [], b, hb, hfit => rfl
  | i :: is, b, hb, hfit => by
    obtain ⟨hmem, hi⟩ := hfit i (by simp)
    rw [listEntries_instructionItems, List.foldlM_cons, List.foldlM_cons,
      read_instruction ht labels size hb hmem hi]
    cases htake : b.take (.ofModule m) i with
    | error e => rfl
    | ok b' =>
      obtain ⟨hb', hlength⟩ := Body.take_values htake hb
      rw [← hlength]
      exact foldlM_instructionItems is hb' fun j hj => hfit j (by simp [hj])

/-- Records with a call among them that does not fit are not read. -/
theorem foldlM_instructionItems_error : ∀ (is : List Instruction) {b : Body} (es : List Entry),
    t.values <+: b.values → (∀ i ∈ is, i ∈ m.instructions) → (∃ i ∈ is, ¬ m.Fits i) →
    ∃ e, (Item.listEntries [] (instructionItems (.ofModule m) b.values.length is) ++ es).foldlM
      (Body.read t labels size) b = .error e
  | [], b, es, hb, hmem, ⟨i, hi, _⟩ => nomatch hi
  | i :: is, b, es, hb, hmem, hmisfit => by
    rw [listEntries_instructionItems, List.cons_append, List.foldlM_cons]
    by_cases hi : m.Fits i
    · rw [read_instruction ht labels size hb (hmem i (by simp)) hi]
      cases htake : b.take (.ofModule m) i with
      | error e => exact ⟨e, rfl⟩
      | ok b' =>
        obtain ⟨hb', hlength⟩ := Body.take_values htake hb
        rw [← hlength]
        refine foldlM_instructionItems_error is es hb' (fun j hj => hmem j (by simp [hj])) ?_
        obtain ⟨j, hj, hmis⟩ := hmisfit
        rcases List.mem_cons.mp hj with rfl | hj
        · exact absurd hi hmis
        · exact ⟨j, hj, hmis⟩
    · obtain ⟨e, he⟩ := read_instruction_error ht labels size hb hi
      rw [he]
      exact ⟨e, rfl⟩

end Reading

/-! ## Blocks -/

theorem Body.append_eq (values : List Value) (done todo : List Ir.Block) (label : String)
    (front : List Instruction) (i : Instruction) :
    append ⟨values, done ++ ⟨label, front⟩ :: todo, done.length⟩ i =
      .ok ⟨values, done ++ ⟨label, front ++ [i]⟩ :: todo,
        if i.isTerminator then done.length + 1 else done.length⟩ := by
  rw [append, if_pos (by simp)]
  congr 2
  exact List.modifyTailIdx_add _ 0 done _

/-- Instructions with a return at most at their end go to the current block. -/
theorem foldlM_take_block (l : Layout) (done todo : List Ir.Block) (label : String) :
    ∀ (is front : List Instruction) (values : List Value), .ret ∉ is.dropLast →
      ∃ values', is.foldlM (Body.take l) ⟨values, done ++ ⟨label, front⟩ :: todo, done.length⟩ =
        .ok ⟨values', done ++ ⟨label, front ++ is⟩ :: todo,
          if is.getLast? = some .ret then done.length + 1 else done.length⟩
  | [], front, values, _ => ⟨values, by simp [pure, Except.pure]⟩
  | .ret :: is, front, values, h => by
    obtain rfl : is = [] := by
      cases is with
      | nil => rfl
      | cons j is => simp at h
    refine ⟨values, ?_⟩
    rw [List.foldlM_cons, Body.take, Body.append_eq]
    rfl
  | .call callee args :: is, front, values, h => by
    have hlast : (Instruction.call callee args :: is).getLast? = some .ret ↔
        is.getLast? = some .ret := by
      cases is with
      | nil => simp
      | cons j is => rw [List.getLast?_cons_cons]
    have hrest : .ret ∉ is.dropLast := by
      cases is with
      | nil => simp
      | cons j is => simpa using h
    obtain ⟨values', ih⟩ := foldlM_take_block l done todo label is (front ++ [.call callee args])
      (if l.yields (.call callee args) then values ++ [Value.other] else values) hrest
    refine ⟨values', ?_⟩
    rw [List.foldlM_cons, Body.take, Body.append_eq]
    simp only [hlast]
    refine ih.trans ?_
    rw [List.append_assoc]
    rfl

/-- Blocks that have been filled come back. -/
theorem foldlM_take (l : Layout) : ∀ (todo done : List Ir.Block) (values : List Value),
    Filled (todo.map (·.instructions)) →
    ∃ b, (todo.flatMap (·.instructions)).foldlM (Body.take l)
        ⟨values, done ++ todo.map fun b => ⟨b.label, []⟩, done.length⟩ = .ok b ∧
      b.blocks = done ++ todo
  | [], done, values, _ => ⟨_, rfl, rfl⟩
  | b :: todo, done, values, ⟨hret, hrest⟩ => by
    obtain ⟨values', hblock⟩ := foldlM_take_block l done
      (todo.map fun b => ⟨b.label, []⟩) b.label b.instructions [] values hret
    rw [List.flatMap_cons, List.map_cons, List.foldlM_append, hblock, List.nil_append]
    split at hrest
    · rename_i hends
      have h := foldlM_take l todo (done ++ [b]) values' hrest
      rw [if_pos hends]
      rw [List.length_append, List.append_assoc, List.append_assoc] at h
      exact h
    · have hempty : ∀ c ∈ todo, c.instructions = [] := fun c hc =>
        hrest _ (List.mem_map_of_mem hc)
      have hblank : (todo.map fun b => Ir.Block.mk b.label []) = todo := by
        refine (List.map_congr_left fun c hc => ?_).trans (List.map_id todo)
        rw [← hempty c hc]
        rfl
      rw [List.flatMap_eq_nil_iff.mpr hempty, hblank]
      exact ⟨_, rfl, rfl⟩

/-- All blocks but the last hold their return, so there are not many more blocks than
instructions. -/
theorem length_le_instructions : ∀ (bs : List Ir.Block),
    (∀ b ∈ bs.dropLast, b.instructions.getLast? = some .ret) →
    bs.length ≤ 1 + (bs.flatMap (·.instructions)).length
  | [], _ => by simp
  | [b], _ => by simp
  | b :: c :: bs, h => by
    have hb : b.instructions ≠ [] := by
      intro hnil
      have := h b (by simp)
      rw [hnil] at this
      cases this
    have hpos := List.length_pos_iff.mpr hb
    have hrest := length_le_instructions (c :: bs) fun d hd => h d (by
      rw [List.dropLast_cons_cons]
      simp [hd])
    rw [List.flatMap_cons, List.length_append]
    simp only [List.length_cons] at hrest ⊢
    omega

theorem blocksFit_of_shaped {f : Function} (h : f.Shaped) : f.BlocksFit :=
  Nat.le_trans (length_le_instructions f.blocks h.ends_ret) (Nat.le_add_right _ _)

/-! ## Whole bodies -/

theorem filterMap_instructionItems (l : Layout) : ∀ (is : List Instruction) (next : Nat),
    (Item.listEntries [] (instructionItems l next is)).filterMap Entry.block? = [] ∧
      (Item.listEntries [] (instructionItems l next is)).length = is.length
  | [], _ => ⟨rfl, rfl⟩
  | i :: is, next => by
    obtain ⟨hblocks, hlength⟩ := filterMap_instructionItems l is _
    rw [listEntries_instructionItems]
    exact ⟨hblocks, congrArg (· + 1) hlength⟩

theorem instructionItems_records (l : Layout) : ∀ (is : List Instruction) (next : Nat),
    ∀ i ∈ instructionItems l next is, i.IsRecord
  | [], _, _, hi => nomatch hi
  | .ret :: is, next, i, hi => by
    rcases List.mem_cons.mp hi with rfl | hi
    · exact ⟨_, _, rfl⟩
    · exact instructionItems_records l is _ i hi
  | .call callee args :: is, next, i, hi => by
    rcases List.mem_cons.mp hi with rfl | hi
    · exact ⟨_, _, rfl⟩
    · exact instructionItems_records l is _ i hi

/-- The entry for the labels of some blocks, if there is one. -/
def labelEntries (bs : List Ir.Block) : List Entry :=
  if (labelItems 0 bs).isEmpty then []
  else [.block BlockId.symbols (Item.listEntries [] (labelItems 0 bs))]

/-- The entries of the body of a function. -/
def bodyEntries (l : Layout) (f : Function) : List Entry :=
  .record ⟨FunctionCode.blockCount, [f.blocks.length], none⟩ ::
    (Item.listEntries []
        (instructionItems l l.valueCount (f.blocks.flatMap (·.instructions))) ++
      labelEntries f.blocks)

theorem isEmpty_labelItems : ∀ (bs : List Ir.Block) (index : Nat),
    (labelItems index bs).isEmpty = !bs.any (!·.label.isEmpty)
  | [], _ => rfl
  | b :: bs, index => by
    rw [labelItems, List.any_cons]
    cases hlabel : b.label.isEmpty with
    | true => simpa using isEmpty_labelItems bs (index + 1)
    | false => simp

/-- The entries of a body are those the blocks are held against. -/
theorem blocksFit_iff (l : Layout) (f : Function) :
    f.BlocksFit ↔ f.blocks.length ≤ (bodyEntries l f).length := by
  have hlabels : (labelEntries f.blocks).length = (f.blocks.any (!·.label.isEmpty)).toNat := by
    rw [labelEntries, isEmpty_labelItems]
    cases f.blocks.any (!·.label.isEmpty) <;> rfl
  rw [Function.BlocksFit, bodyEntries, List.length_cons, List.length_append,
    (filterMap_instructionItems l _ _).2, hlabels]
  omega

theorem entries_bodyItem (l : Layout) (f : Function) :
    (bodyItem l f).entries [] = [.block BlockId.function (bodyEntries l f)] := by
  rw [bodyItem, Item.entries, Item.listEntries_record,
    Item.listEntries_append [] (fun i hi => (instructionItems_records l _ _ i hi).defined_eq),
    bodyEntries, labelEntries]
  split <;> rfl

theorem symbols_bodyEntries (l : Layout) (f : Function) :
    (((Bitstream.Block.mk BlockId.function (bodyEntries l f)).blocks.filter
        (·.id = BlockId.symbols)).flatMap (·.records)) = Item.records (labelItems 0 f.blocks) := by
  have hblocks : (Bitstream.Block.mk BlockId.function (bodyEntries l f)).blocks =
      (labelEntries f.blocks).filterMap Entry.block? := by
    rw [Bitstream.Block.blocks, bodyEntries, List.filterMap_cons_none rfl, List.filterMap_append,
      (filterMap_instructionItems l _ _).1, List.nil_append]
  rw [hblocks, labelEntries]
  split
  · rename_i hempty
    rw [List.isEmpty_iff.mp hempty]
    rfl
  · simp [Entry.block?, Bitstream.Block.records, Item.records]

section Body

variable {t : Tables} {m : Module} (ht : t.Knows m) {f : Function} (hf : f ∈ m.functions)
  (hnext : t.defined[t.bodies.length]? =
    some (.ofCallable (.ofModule m) m.attributeGroups (.ofFunction f)))
include ht hf hnext

/-- What reading the body of the next function comes down to. -/
theorem bodyOf_eq : ∃ labels,
    (List.range f.blocks.length).map (fun i => Ir.Block.mk ((labels.lookup i).getD "") []) =
        f.blocks.map (fun b => ⟨b.label, []⟩) ∧
      bodyOf t ⟨BlockId.function, bodyEntries (.ofModule m) f⟩ =
        Body.blocks <$> (bodyEntries (.ofModule m) f).foldlM
          (Body.read t labels (bodyEntries (.ofModule m) f).length) ⟨t.values, [], 0⟩ := by
  obtain ⟨labels, hlabels, hblocks⟩ := labelsOf_labelItems f.blocks
  have hmem : Callable.ofFunction f ∈ Callable.all m :=
    List.mem_append_right _ (List.mem_map_of_mem hf)
  have hsignature := Tables.signature_typeId ht.types (Layout.callable_mem m hmem)
  refine ⟨labels, hblocks, ?_⟩
  unfold bodyOf
  dsimp only
  rw [symbols_bodyEntries]
  refine (bind_of_ok hlabels _).trans ?_
  rw [hnext]
  refine (bind_of_ok hsignature _).trans ?_
  show (do
    let b ← (bodyEntries (.ofModule m) f).foldlM
      (Body.read t labels (bodyEntries (.ofModule m) f).length) ⟨t.values ++ [], [], 0⟩
    return b.blocks) = _
  rw [List.append_nil]
  rfl

omit ht hf hnext in
/-- Counting the blocks comes first. -/
theorem read_blockCount {labels : List (Nat × String)}
    (hlabels : (List.range f.blocks.length).map
        (fun i => Ir.Block.mk ((labels.lookup i).getD "") []) =
      f.blocks.map (fun b => ⟨b.label, []⟩)) (size : Nat) :
    Body.read t labels size ⟨t.values, [], 0⟩
        (.record ⟨FunctionCode.blockCount, [f.blocks.length], none⟩) =
      if size < f.blocks.length then reject .blockCount
      else .ok ⟨t.values, f.blocks.map fun b => ⟨b.label, []⟩, 0⟩ := by
  rw [← hlabels]
  rfl

/-- Reading the body of a function that fits is taking its instructions. -/
theorem bodyOf_eq_take (hfit : m.FitsBody f) :
    bodyOf t ⟨BlockId.function, bodyEntries (.ofModule m) f⟩ =
      Body.blocks <$> (f.blocks.flatMap (·.instructions)).foldlM (Body.take (.ofModule m))
        ⟨t.values, f.blocks.map fun b => ⟨b.label, []⟩, 0⟩ := by
  obtain ⟨labels, hblocks, heq⟩ := bodyOf_eq ht hf hnext
  have hsize := Nat.not_lt.mpr ((blocksFit_iff (.ofModule m) f).mp hfit.1)
  have hinstructions := foldlM_instructionItems ht labels (bodyEntries (.ofModule m) f).length
    (f.blocks.flatMap (·.instructions)) (b := ⟨t.values, f.blocks.map fun b => ⟨b.label, []⟩, 0⟩)
    (List.prefix_refl _) fun i hi => ⟨List.mem_flatMap.mpr ⟨f, hf, hi⟩, hfit.2 i hi⟩
  have hlabels (b : Body) : (labelEntries f.blocks).foldlM
      (Body.read t labels (bodyEntries (.ofModule m) f).length) b = .ok b := by
    unfold labelEntries
    split <;> rfl
  rw [ht.values, Layout.length_values, ← ht.values] at hinstructions
  rw [heq, bodyEntries, List.foldlM_cons, ← bodyEntries, read_blockCount hblocks, if_neg hsize]
  show Body.blocks <$> List.foldlM _ _ _ = _
  rw [List.foldlM_append, hinstructions]
  cases List.foldlM (Body.take (.ofModule m)) _ _ with
  | error e => rfl
  | ok b => exact congrArg (Body.blocks <$> ·) (hlabels b)

/-- The blocks of a function come back if they have been filled and the body fits. -/
theorem bodyOf_bodyEntries (hfilled : Filled (f.blocks.map (·.instructions)))
    (hfit : m.FitsBody f) :
    bodyOf t ⟨BlockId.function, bodyEntries (.ofModule m) f⟩ = .ok f.blocks := by
  obtain ⟨b, htake, hb⟩ := foldlM_take (.ofModule m) f.blocks [] t.values hfilled
  rw [List.nil_append, List.length_nil] at htake
  rw [bodyOf_eq_take ht hf hnext hfit, htake]
  exact congrArg Except.ok hb

/-- A body that does not fit is not read. -/
theorem bodyOf_bodyEntries_error (hmisfit : ¬ m.FitsBody f) :
    ∃ e, bodyOf t ⟨BlockId.function, bodyEntries (.ofModule m) f⟩ = .error e := by
  obtain ⟨labels, hblocks, heq⟩ := bodyOf_eq ht hf hnext
  rw [heq, bodyEntries, List.foldlM_cons, ← bodyEntries, read_blockCount hblocks]
  split
  · exact ⟨_, rfl⟩
  · rename_i hsize
    have hcalls : ∃ i ∈ f.blocks.flatMap (·.instructions), ¬ m.Fits i := by
      by_contra hall
      simp only [not_exists, not_and, not_not] at hall
      exact hmisfit ⟨(blocksFit_iff (.ofModule m) f).mpr (Nat.not_lt.mp hsize), hall⟩
    obtain ⟨e, he⟩ := foldlM_instructionItems_error ht labels
      (bodyEntries (.ofModule m) f).length (f.blocks.flatMap (·.instructions))
      (b := ⟨t.values, f.blocks.map fun b => ⟨b.label, []⟩, 0⟩)
      (labelEntries f.blocks) (List.prefix_refl _)
      (fun i hi => List.mem_flatMap.mpr ⟨f, hf, hi⟩) hcalls
    rw [ht.values, Layout.length_values, ← ht.values] at he
    refine ⟨e, ?_⟩
    show Body.blocks <$> List.foldlM _ _ _ = _
    rw [he]
    rfl

end Body

/-! ## All bodies -/

namespace Tables

variable {t : Tables} {m : Module}

/-- The functions that get bodies are those of the module, in order. -/
theorem defined_eq (ht : t.Knows m) : t.defined =
    m.functions.map fun f => .ofCallable (.ofModule m) m.attributeGroups (.ofFunction f) := by
  have hdeclarations : (m.declarations.map fun d =>
      FunctionEntry.ofCallable (.ofModule m) m.attributeGroups (.ofDeclaration d)).filter
        (!·.isDeclaration) = [] := by
    simp [FunctionEntry.ofCallable, Callable.ofDeclaration]
  have hfunctions : (m.functions.map fun f =>
      FunctionEntry.ofCallable (.ofModule m) m.attributeGroups (.ofFunction f)).filter
        (!·.isDeclaration) = m.functions.map fun f =>
          .ofCallable (.ofModule m) m.attributeGroups (.ofFunction f) := by
    rw [List.filter_eq_self]
    simp [FunctionEntry.ofCallable, Callable.ofFunction]
  rw [defined, ht.functions, Callable.all, List.map_append, List.map_map, List.map_map,
    List.filter_append]
  exact (congr (congrArg HAppend.hAppend hdeclarations) hfunctions).trans (List.nil_append _)

theorem listEntries_bodyItems (l : Layout) : ∀ fs : List Function,
    Item.listEntries [] (fs.map (bodyItem l)) =
      fs.map fun f => .block BlockId.function (bodyEntries l f)
  | [] => rfl
  | f :: fs => by
    rw [List.map_cons, Item.listEntries, entries_bodyItem]
    exact congrArg _ (listEntries_bodyItems l fs)

theorem defined_next (ht : t.Knows m) {done todo : List Function} {f : Function}
    (h : m.functions = done ++ f :: todo) (hbodies : t.bodies.length = done.length) :
    t.defined[t.bodies.length]? =
      some (.ofCallable (.ofModule m) m.attributeGroups (.ofFunction f)) := by
  rw [defined_eq ht, h, hbodies, List.getElem?_map, List.getElem?_append_right (Nat.le_refl _),
    Nat.sub_self]
  rfl

/-- Reading the bodies of the functions of a module, if they fit. -/
theorem read_bodyItems : ∀ (todo done : List Function) {t : Tables},
    t.Knows m → m.functions = done ++ todo → t.bodies = done.map (·.blocks) →
    (∀ f ∈ todo, Filled (f.blocks.map (·.instructions)) ∧ m.FitsBody f) →
    (Item.listEntries [] (todo.map (bodyItem (.ofModule m)))).foldlM read t =
      .ok { t with bodies := m.functions.map (·.blocks) }
  | [], done, t, ht, h, hbodies, _ => by
    rw [List.append_nil] at h
    rw [h, ← hbodies]
    rfl
  | f :: todo, done, t, ht, h, hbodies, hfs => by
    obtain ⟨hfilled, hfit⟩ := hfs f (by simp)
    have hbody := bodyOf_bodyEntries ht (by simp [h]) (defined_next ht h (by simp [hbodies]))
      hfilled hfit
    have hnext := read_bodyItems todo (done ++ [f])
      (t := { t with bodies := t.bodies ++ [f.blocks] }) ⟨ht.types, ht.functions, ht.values⟩
      (by simp [h]) (by simp [hbodies]) fun g hg => hfs g (by simp [hg])
    rw [listEntries_bodyItems] at hnext ⊢
    rw [List.map_cons, foldlM_read_block]
    show ((do return { t with bodies := t.bodies ++
      [← bodyOf t ⟨BlockId.function, bodyEntries (.ofModule m) f⟩] }) >>= fun t => _) = _
    rw [hbody]
    exact hnext

/-- If one of them does not fit, they are not read. -/
theorem read_bodyItems_error : ∀ (todo done : List Function) {t : Tables},
    t.Knows m → m.functions = done ++ todo → t.bodies = done.map (·.blocks) →
    (∀ f ∈ todo, Filled (f.blocks.map (·.instructions))) → (∃ f ∈ todo, ¬ m.FitsBody f) →
    ∃ e, (Item.listEntries [] (todo.map (bodyItem (.ofModule m)))).foldlM read t = .error e
  | [], _, _, _, _, _, _, ⟨f, hf, _⟩ => nomatch hf
  | f :: todo, done, t, ht, h, hbodies, hfilled, hmisfit => by
    have hf : f ∈ m.functions := by simp [h]
    have hnext := defined_next ht h (by simp [hbodies])
    rw [listEntries_bodyItems, List.map_cons, foldlM_read_block]
    show ∃ e, ((do return { t with bodies := t.bodies ++
      [← bodyOf t ⟨BlockId.function, bodyEntries (.ofModule m) f⟩] }) >>= fun t => _) = _
    by_cases hfit : m.FitsBody f
    · rw [bodyOf_bodyEntries ht hf hnext (hfilled f (by simp)) hfit]
      rw [← listEntries_bodyItems]
      refine read_bodyItems_error todo (done ++ [f])
        (t := { t with bodies := t.bodies ++ [f.blocks] }) ⟨ht.types, ht.functions, ht.values⟩
        (by simp [h]) (by simp [hbodies]) (fun g hg => hfilled g (by simp [hg])) ?_
      obtain ⟨g, hg, hmis⟩ := hmisfit
      rcases List.mem_cons.mp hg with rfl | hg
      · exact absurd hfit hmis
      · exact ⟨g, hg, hmis⟩
    · obtain ⟨e, he⟩ := bodyOf_bodyEntries_error ht hf hnext hfit
      rw [he]
      exact ⟨e, rfl⟩

end Tables

end CircuitQir.Bitcode
