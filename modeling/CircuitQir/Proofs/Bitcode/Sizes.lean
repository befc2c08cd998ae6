import CircuitQir.Proofs.Bitcode.Modules
import CircuitQir.Proofs.Bitstream.Size
/-!
# The items of a module fit

The items of a module are always of the right shape (`forest_items_valid`). They also fit if the
bitcode is short, because almost every number in them counts something that takes room there:
`Sizes` collects what is counted, and `listSmall_items` concludes that the numbers are small.
-/

namespace CircuitQir.Bitcode

open Ir Bitstream

/-! ## Shape -/

theorem typeItem_record (l : Layout) (s : StoredType) : (typeItem l s).IsRecord := by
  cases s <;> exact ⟨_, _, rfl⟩

theorem constantItem_record (l : Layout) (c : Constant) : (constantItem l c).IsRecord := by
  cases c <;> exact ⟨_, _, rfl⟩

theorem constantItems_records (l : Layout) : ∀ (cs : List Constant) (current : Option StoredType),
    ∀ i ∈ constantItems l current cs, i.IsRecord
  | [], _, _, hi => nomatch hi
  | c :: cs, current, i, hi => by
    rw [constantItems] at hi
    split at hi
    · rcases List.mem_cons.mp hi with rfl | hi
      · exact constantItem_record l c
      · exact constantItems_records l cs _ i hi
    · rcases List.mem_cons.mp hi with rfl | hi
      · exact ⟨_, _, rfl⟩
      · rcases List.mem_cons.mp hi with rfl | hi
        · exact constantItem_record l c
        · exact constantItems_records l cs _ i hi

theorem labelItems_records : ∀ (bs : List Ir.Block) (index : Nat),
    ∀ i ∈ labelItems index bs, i.IsRecord
  | [], _, _, hi => nomatch hi
  | b :: bs, index, i, hi => by
    rw [labelItems] at hi
    rcases List.mem_append.mp hi with hi | hi
    · split at hi
      · cases hi
      · exact ⟨_, _, List.mem_singleton.mp hi⟩
    · exact labelItems_records bs _ i hi

/-- A block of records is valid. -/
theorem valid_block_records {depth width id inner : Nat} {codes : List Nat} {items : List Item}
    (hid : id ≠ announcingBlock) (hdepth : depth ≤ maxDepth) (hinner : 2 ≤ inner ∧ inner ≤ 32)
    (h : ∀ i ∈ items, i.IsRecord) : Item.Valid depth width codes (.block id inner items) :=
  ⟨hid, hdepth, hinner, Item.listValid_of_records h⟩

theorem valid_bodyItem (l : Layout) (f : Function) : Item.Valid 1 3 [] (bodyItem l f) := by
  refine ⟨by decide, by decide, by decide, Item.listValid_of_forall fun i hi => ?_⟩
  rcases List.mem_cons.mp hi with rfl | hi
  · exact ⟨rfl, trivial⟩
  rcases List.mem_append.mp hi with hi | hi
  · have h := instructionItems_records l _ _ i hi
    exact ⟨h.defined_eq, h.valid _ _ _⟩
  · split at hi
    · cases hi
    · obtain rfl := List.mem_singleton.mp hi
      exact ⟨rfl, valid_block_records (by decide) (by decide) (by decide)
        (labelItems_records f.blocks 0)⟩

theorem valid_moduleItem (l : Layout) (m : Module) : Item.Valid 0 2 [] (moduleItem l m) := by
  refine ⟨by decide, by decide, by decide, Item.listValid_of_forall fun i hi => ?_⟩
  simp only [List.append_assoc, List.mem_append, List.mem_cons, List.not_mem_nil, or_false] at hi
  rcases hi with rfl | hi | (rfl | rfl) | hi | hi | hi | hi
  · exact ⟨rfl, trivial⟩
  · refine ⟨attributeItems_defined _ i hi, ?_⟩
    unfold attributeItems at hi
    split at hi
    · cases hi
    · simp only [List.mem_cons, List.not_mem_nil, or_false] at hi
      rcases hi with rfl | rfl <;>
        refine valid_block_records (by decide) (by decide) (by decide) fun i hi => ?_ <;>
        obtain ⟨g, -, rfl⟩ := List.mem_map.mp hi <;> exact ⟨_, _, rfl⟩
  · refine ⟨rfl, valid_block_records (by decide) (by decide) (by decide) fun i hi => ?_⟩
    rcases List.mem_cons.mp hi with rfl | hi
    · exact ⟨_, _, rfl⟩
    · obtain ⟨s, -, rfl⟩ := List.mem_map.mp hi
      exact typeItem_record l s
  · exact ⟨rfl, trivial⟩
  · have h := functionItems_records l _ _ _ i hi
    exact ⟨h.defined_eq, h.valid _ _ _⟩
  · refine ⟨constantsItem_defined l i hi, ?_⟩
    unfold constantsItem at hi
    split at hi
    · cases hi
    · obtain rfl := List.mem_singleton.mp hi
      exact valid_block_records (by decide) (by decide) (by decide) (constantItems_records l _ _)
  · refine ⟨flagItems_defined l _ i hi, ?_⟩
    unfold flagItems at hi
    split at hi
    · cases hi
    · obtain rfl := List.mem_singleton.mp hi
      refine valid_block_records (by decide) (by decide) (by decide) ?_
      intro i hi
      simp only [List.mem_append, List.mem_map, List.mem_cons, List.not_mem_nil, or_false] at hi
      rcases hi with ((⟨k, -, rfl⟩ | ⟨c, -, rfl⟩) | ⟨f, -, rfl⟩) | rfl | rfl <;>
        exact ⟨_, _, rfl⟩
  · obtain ⟨f, -, rfl⟩ := List.mem_map.mp hi
    exact ⟨rfl, valid_bodyItem l f⟩

/-- The items of a module are valid. -/
theorem forest_items_valid (m : Module) : Item.Forest (items m) := by
  refine ⟨fun i hi => ?_, Item.listValid_of_forall fun i hi => ?_⟩
  · simp only [items, List.mem_cons, List.not_mem_nil, or_false] at hi
    rcases hi with rfl | rfl | rfl <;> exact ⟨_, _, _, rfl⟩
  · simp only [items, List.mem_cons, List.not_mem_nil, or_false] at hi
    rcases hi with rfl | rfl | rfl
    · refine ⟨rfl, valid_block_records (by decide) (by decide) (by decide) fun i hi => ?_⟩
      simp only [List.mem_cons, List.not_mem_nil, or_false] at hi
      rcases hi with rfl | rfl <;> exact ⟨_, _, rfl⟩
    · exact ⟨rfl, valid_moduleItem _ m⟩
    · refine ⟨rfl, by decide, by decide, by decide, trivial, ⟨by decide, ?_⟩, trivial⟩
      simp [Item.defined]

/-! ## Counts -/

/-- There are at most `n` of everything that a module numbers. -/
structure Sizes (m : Module) (n : Nat) : Prop where
  types : (Layout.ofModule m).types.length ≤ n
  callables : (Layout.ofModule m).callables.length ≤ n
  constants : (Layout.ofModule m).constants.length ≤ n
  names : (Layout.ofModule m).stringTable.length ≤ n
  groups : m.attributeGroups.length ≤ n
  flags : m.flags.length ≤ n
  flagKeys : (flagKeys m.flags).length ≤ n
  flagValues : (flagValues m.flags).length ≤ n
  instructions : ∀ f ∈ m.functions, (f.blocks.flatMap (·.instructions)).length ≤ n

theorem length_functionItems (l : Layout) (groups : List AttributeGroup) :
    ∀ (cs : List Callable) (offset : Nat), (functionItems l groups offset cs).length = cs.length
  | [], _ => rfl
  | _ :: cs, _ => congrArg (· + 1) (length_functionItems l groups cs _)

theorem length_constantItems (l : Layout) :
    ∀ (cs : List Constant) (current : Option StoredType),
      cs.length ≤ (constantItems l current cs).length
  | [], _ => Nat.zero_le _
  | c :: cs, current => by
    have ih := length_constantItems l cs (some c.type)
    rw [constantItems, List.length_append, List.length_cons, List.length_cons]
    omega

theorem length_instructionItems (l : Layout) :
    ∀ (is : List Instruction) (next : Nat), (instructionItems l next is).length = is.length
  | [], _ => rfl
  | .ret :: is, next => congrArg (· + 1) (length_instructionItems l is next)
  | .call _ _ :: is, _ => congrArg (· + 1) (length_instructionItems l is _)

/-- Items inside a block are counted with it. -/
theorem length_le_count (id width : Nat) (items : List Item) :
    items.length < (Item.block id width items).count := by
  have := Item.length_le_listCount items
  rw [Item.count]
  omega

/-- What a module numbers is counted in its items. -/
theorem sizes_items (m : Module) : Sizes m (Item.listCount (items m)) := by
  have hmodule : (moduleItem (.ofModule m) m).count ≤ Item.listCount (items m) :=
    Item.count_le_listCount (by simp [items])
  have htable : (stringTableItem (.ofModule m)).count ≤ Item.listCount (items m) :=
    Item.count_le_listCount (by simp [items])
  rw [stringTableItem] at htable
  simp only [Item.count, Item.listCount] at htable
  rw [moduleItem, Item.count] at hmodule
  simp only [Item.listCount_append, Item.listCount] at hmodule
  have htypes := length_le_count BlockId.types 4 (.record TypeCode.count
    [(Layout.ofModule m).types.length] :: (Layout.ofModule m).types.map (typeItem (.ofModule m)))
  rw [← typesItem, List.length_cons, List.length_map] at htypes
  have hfunctions := Item.length_le_listCount
    (functionItems (.ofModule m) m.attributeGroups 0 (Layout.ofModule m).callables)
  rw [length_functionItems] at hfunctions
  have hgroups : m.attributeGroups.length ≤ Item.listCount (attributeItems m.attributeGroups) := by
    unfold attributeItems
    split
    · rename_i hempty
      simp [List.isEmpty_iff.mp hempty]
    · have := length_le_count BlockId.attributeLists 3 (m.attributeGroups.map fun g =>
        .record AttributeCode.list [storedGroupId g])
      rw [List.length_map] at this
      simp only [Item.listCount]
      omega
  have hconstants : (Layout.ofModule m).constants.length ≤
      Item.listCount (constantsItem (.ofModule m)) := by
    unfold constantsItem
    split
    · rename_i hempty
      simp [List.isEmpty_iff.mp hempty]
    · have hle := length_constantItems (.ofModule m) (Layout.ofModule m).constants none
      have := length_le_count BlockId.constants 4
        (constantItems (.ofModule m) none (Layout.ofModule m).constants)
      simp only [Item.listCount]
      omega
  have hflags : (flagKeys m.flags).length + (flagValues m.flags).length + m.flags.length ≤
      Item.listCount (flagItems (.ofModule m) m.flags) := by
    unfold flagItems
    split
    · rename_i hempty
      simp [List.isEmpty_iff.mp hempty, flagKeys, flagValues]
    · simp only [Item.listCount]
      refine Nat.le_trans ?_ (Nat.le_of_lt (length_le_count BlockId.metadata 3 _))
      simp only [List.length_append, List.length_map]
      omega
  have hbodies : ∀ f ∈ m.functions, (f.blocks.flatMap (·.instructions)).length ≤
      Item.listCount (m.functions.map (bodyItem (.ofModule m))) := by
    intro f hf
    refine Nat.le_trans ?_ (Item.count_le_listCount (List.mem_map_of_mem hf))
    refine Nat.le_trans ?_ (Nat.le_of_lt (length_le_count BlockId.function 4 _))
    rw [List.length_cons, List.length_append, length_instructionItems]
    omega
  exact ⟨by omega, by omega, by omega, by omega, by omega, by omega, by omega, by omega,
    fun f hf => Nat.le_trans (hbodies f hf) (by omega)⟩

/-! ## Numbers -/

theorem small_record {code : Nat} {ops : List Nat} (hcode : code < 2 ^ 32)
    (hops : ∀ n ∈ ops, n < 2 ^ 64) : Item.Small (.record code ops) :=
  ⟨by omega, hops⟩

theorem bytes_lt (s : String) : ∀ n ∈ (Utf8.encode s).map UInt8.toNat, n < 256 := by
  intro n hn
  obtain ⟨b, -, rfl⟩ := List.mem_map.mp hn
  exact b.toNat_lt

theorem small_text {code : Nat} {ops : List Nat} (s : String) (hcode : code < 2 ^ 32)
    (hops : ∀ n ∈ ops, n < 2 ^ 64) : Item.Small (.text code ops s) := by
  refine small_record hcode ?_
  intro n hn
  rcases List.mem_append.mp hn with hn | hn
  · exact hops n hn
  · have := bytes_lt s n hn
    omega

theorem small_block {id width : Nat} {items : List Item} (hid : id < 2 ^ 32)
    (h : ∀ i ∈ items, i.Small) : Item.Small (.block id width items) :=
  ⟨by omega, Item.listSmall_iff.mpr h⟩

theorem attributeOps_lt (a : Attribute) : ∀ n ∈ attributeOps a, n < 256 := by
  have hterminated : ∀ s : String, ∀ n ∈ terminated s, n < 256 := by
    intro s n hn
    rcases List.mem_append.mp hn with hn | hn
    · exact bytes_lt s n hn
    · obtain rfl := List.mem_singleton.mp hn
      decide
  intro n hn
  cases a with
  | flag key =>
    rcases List.mem_cons.mp hn with rfl | hn
    · decide
    · exact hterminated key n hn
  | keyValue key value =>
    rcases List.mem_cons.mp hn with rfl | hn
    · decide
    rcases List.mem_append.mp hn with hn | hn
    · exact hterminated key n hn
    · exact hterminated value n hn

theorem encodeSigned_lt {v : Int} (hl : -2 ^ 63 ≤ v) (hu : v < 2 ^ 63) :
    encodeSigned v < 2 ^ 64 := by
  unfold encodeSigned
  split
  · omega
  · split <;> omega

theorem Layout.typeId_le (l : Layout) (s : StoredType) : l.typeId s ≤ l.types.length :=
  List.idxOf_le_length

theorem Layout.constantId_le (l : Layout) (c : Constant) : l.constantId c ≤ l.valueCount :=
  Nat.add_le_add_left List.idxOf_le_length _

theorem attributeList_le (groups : List AttributeGroup) (id : Option UInt32) :
    attributeList groups id ≤ groups.length := by
  unfold attributeList
  split
  · rename_i i hi
    obtain ⟨id, -, hi⟩ := Option.bind_eq_some_iff.mp hi
    obtain ⟨hlt, -⟩ := List.findIdx?_eq_some_iff_getElem.mp hi
    exact hlt
  · exact Nat.zero_le _

theorem small_attributeItems (groups : List AttributeGroup) :
    ∀ i ∈ attributeItems groups, i.Small := by
  have hid : ∀ g : AttributeGroup, storedGroupId g < 2 ^ 64 := by
    intro g
    have := g.id.toNat_lt
    unfold storedGroupId
    omega
  intro i hi
  unfold attributeItems at hi
  split at hi
  · cases hi
  · simp only [List.mem_cons, List.not_mem_nil, or_false] at hi
    rcases hi with rfl | rfl
    · refine small_block (by decide) ?_
      intro i hi
      obtain ⟨g, -, rfl⟩ := List.mem_map.mp hi
      refine small_record (by decide) ?_
      intro n hn
      simp only [List.mem_cons, List.mem_flatMap] at hn
      rcases hn with rfl | rfl | ⟨a, -, hn⟩
      · exact hid g
      · decide
      · have := attributeOps_lt a n hn
        omega
    · refine small_block (by decide) ?_
      intro i hi
      obtain ⟨g, -, rfl⟩ := List.mem_map.mp hi
      refine small_record (by decide) ?_
      intro n hn
      obtain rfl := List.mem_singleton.mp hn
      exact hid g

section Small

variable {m : Module} {n : Nat} (hm : Sizes m n)
include hm

theorem valueCount_le : (Layout.ofModule m).valueCount ≤ 2 * n := by
  have := hm.callables
  have := hm.constants
  unfold Layout.valueCount
  omega

variable (hn : n < 2 ^ 60)
include hn

theorem typeId_lt (s : StoredType) : (Layout.ofModule m).typeId s < 2 ^ 64 := by
  have := (Layout.ofModule m).typeId_le s
  have := hm.types
  omega

theorem constantId_lt (c : Constant) : (Layout.ofModule m).constantId c < 2 ^ 64 := by
  have := (Layout.ofModule m).constantId_le c
  have := valueCount_le hm
  omega

theorem small_typesItem : (typesItem (.ofModule m)).Small := by
  refine small_block (by decide) ?_
  intro i hi
  rcases List.mem_cons.mp hi with rfl | hi
  · refine small_record (by decide) ?_
    intro n hn'
    obtain rfl := List.mem_singleton.mp hn'
    have := hm.types
    omega
  · obtain ⟨s, hs, rfl⟩ := List.mem_map.mp hi
    cases s with
    | int width =>
      refine small_record (by decide) ?_
      intro n hn'
      obtain rfl := List.mem_singleton.mp hn'
      exact Nat.lt_trans (Layout.int_mem m hs) (by decide)
    | function result params =>
      refine small_record (by decide) ?_
      intro n hn'
      simp only [List.mem_cons, List.mem_map] at hn'
      rcases hn' with rfl | rfl | ⟨p, -, rfl⟩
      · decide
      · exact typeId_lt hm hn _
      · exact typeId_lt hm hn _
    | _ => exact small_record (by decide) (by simp)

/-- The names of functions lie in the string table. -/
theorem small_functionItems : ∀ (cs : List Callable) (offset : Nat),
    offset + (cs.flatMap fun c => Utf8.encode c.name).length ≤ n →
    ∀ i ∈ functionItems (.ofModule m) m.attributeGroups offset cs, i.Small
  | [], _, _, _, hi => nomatch hi
  | c :: cs, offset, h, i, hi => by
    rw [List.flatMap_cons, List.length_append] at h
    rcases List.mem_cons.mp hi with rfl | hi
    · refine small_record (by decide) ?_
      intro k hk
      have hlist := attributeList_le m.attributeGroups c.attributes
      have hgroups := hm.groups
      have htype := typeId_lt hm hn c.type
      simp only [List.cons_append, List.nil_append, List.mem_cons, List.mem_replicate] at hk
      rcases hk with rfl | rfl | rfl | rfl | rfl | rfl | rfl | ⟨-, rfl⟩
      · omega
      · omega
      · exact htype
      · decide
      · cases c.isDeclaration <;> decide
      · decide
      · omega
      · decide
    · exact small_functionItems cs _ (by omega) i hi

theorem small_constantItem {c : Constant} (hc : c.InRange) :
    (constantItem (.ofModule m) c).Small := by
  cases c with
  | int width v =>
    refine small_record (by decide) ?_
    intro k hk
    obtain rfl := List.mem_singleton.mp hk
    exact encodeSigned_lt hc.2.1 hc.2.2
  | double d =>
    refine small_record (by decide) ?_
    intro k hk
    obtain rfl := List.mem_singleton.mp hk
    exact d.bits.toNat_lt
  | null => exact small_record (by decide) (by simp)
  | pointer p =>
    refine small_record (by decide) ?_
    intro k hk
    simp only [List.mem_cons, List.not_mem_nil, or_false] at hk
    rcases hk with rfl | rfl | rfl
    · decide
    · exact typeId_lt hm hn _
    · exact constantId_lt hm hn _

theorem small_constantItems : ∀ (cs : List Constant) (current : Option StoredType),
    (∀ c ∈ cs, c.InRange) → ∀ i ∈ constantItems (.ofModule m) current cs, i.Small
  | [], _, _, _, hi => nomatch hi
  | c :: cs, current, hcs, i, hi => by
    have hc := small_constantItem hm hn (hcs c (by simp))
    have hrest := small_constantItems cs (some c.type) fun d hd => hcs d (by simp [hd])
    have htype : Item.Small (.record ConstantCode.setType [(Layout.ofModule m).typeId c.type]) := by
      refine small_record (by decide) ?_
      intro k hk
      obtain rfl := List.mem_singleton.mp hk
      exact typeId_lt hm hn _
    rw [constantItems] at hi
    split at hi
    · rcases List.mem_cons.mp hi with rfl | hi
      · exact hc
      · exact hrest i hi
    · rcases List.mem_cons.mp hi with rfl | hi
      · exact htype
      · rcases List.mem_cons.mp hi with rfl | hi
        · exact hc
        · exact hrest i hi

theorem small_constantsItem : ∀ i ∈ constantsItem (.ofModule m), i.Small := by
  intro i hi
  unfold constantsItem at hi
  split at hi
  · cases hi
  · obtain rfl := List.mem_singleton.mp hi
    refine small_block (by decide) (small_constantItems hm hn _ _ fun c hc => ?_)
    exact Layout.named_inRange m ((Layout.mem_constants m).mp hc)

theorem small_flagItems : ∀ i ∈ flagItems (.ofModule m) m.flags, i.Small := by
  have hflags := hm.flags
  have hkeys := hm.flagKeys
  have hvalues := hm.flagValues
  intro i hi
  unfold flagItems at hi
  split at hi
  · cases hi
  · obtain rfl := List.mem_singleton.mp hi
    refine small_block (by decide) ?_
    intro i hi
    simp only [List.mem_append, List.mem_map, List.mem_cons, List.not_mem_nil, or_false] at hi
    rcases hi with ((⟨k, -, rfl⟩ | ⟨c, -, rfl⟩) | ⟨f, -, rfl⟩) | rfl | rfl
    · exact small_text k (by decide) (by simp)
    · refine small_record (by decide) ?_
      intro k hk
      simp only [List.mem_cons, List.not_mem_nil, or_false] at hk
      rcases hk with rfl | rfl
      · exact typeId_lt hm hn _
      · exact constantId_lt hm hn _
    · refine small_record (by decide) ?_
      intro k hk
      have hbehavior := (flagValues m.flags).idxOf_le_length (a := .ofBehavior f.behavior)
      have hvalue := (flagValues m.flags).idxOf_le_length (a := .ofFlagValue f.value)
      have hkey := (flagKeys m.flags).idxOf_le_length (a := f.key)
      simp only [List.mem_cons, List.not_mem_nil, or_false] at hk
      rcases hk with rfl | rfl | rfl <;> omega
    · exact small_text _ (by decide) (by simp)
    · refine small_record (by decide) ?_
      intro k hk
      obtain ⟨i, hi, rfl⟩ := List.mem_map.mp hk
      have := List.mem_range.mp hi
      omega

theorem small_instructionItems : ∀ (is : List Instruction) (next : Nat),
    next + is.length ≤ 4 * n → ∀ i ∈ instructionItems (.ofModule m) next is, i.Small
  | [], _, _, _, hi => nomatch hi
  | .ret :: is, next, h, i, hi => by
    rw [List.length_cons] at h
    rcases List.mem_cons.mp hi with rfl | hi
    · exact small_record (by decide) (by simp)
    · exact small_instructionItems is next (by omega) i hi
  | .call callee args :: is, next, h, i, hi => by
    rw [List.length_cons] at h
    rcases List.mem_cons.mp hi with rfl | hi
    · refine small_record (by decide) ?_
      intro k hk
      simp only [callOps, List.cons_append, List.nil_append, List.mem_cons, List.mem_map] at hk
      rcases hk with rfl | rfl | rfl | rfl | ⟨a, -, rfl⟩
      · decide
      · decide
      · exact typeId_lt hm hn _
      · split
        · exact Nat.lt_of_le_of_lt (Nat.sub_le _ _) (by omega)
        · decide
      · exact Nat.lt_of_le_of_lt (Nat.sub_le _ _) (by omega)
    · refine small_instructionItems is _ ?_ i hi
      split <;> omega

end Small

theorem small_labelItems : ∀ (bs : List Ir.Block) (index : Nat), index + bs.length < 2 ^ 64 →
    ∀ i ∈ labelItems index bs, i.Small
  | [], _, _, _, hi => nomatch hi
  | b :: bs, index, h, i, hi => by
    rw [List.length_cons] at h
    rw [labelItems] at hi
    rcases List.mem_append.mp hi with hi | hi
    · split at hi
      · cases hi
      · obtain rfl := List.mem_singleton.mp hi
        refine small_text _ (by decide) ?_
        intro k hk
        obtain rfl := List.mem_singleton.mp hk
        omega
    · exact small_labelItems bs _ (by omega) i hi

theorem small_bodyItem {m : Module} {n : Nat} (hm : Sizes m n) (hn : n < 2 ^ 60) {f : Function}
    (hf : f ∈ m.functions) (hblocks : f.BlocksFit) : (bodyItem (.ofModule m) f).Small := by
  have hinstructions := hm.instructions f hf
  have hlabels := Bool.toNat_le (f.blocks.any (!·.label.isEmpty))
  have hvalues := valueCount_le hm
  unfold Function.BlocksFit at hblocks
  refine small_block (by decide) ?_
  intro i hi
  rcases List.mem_cons.mp hi with rfl | hi
  · refine small_record (by decide) ?_
    intro k hk
    obtain rfl := List.mem_singleton.mp hk
    omega
  rcases List.mem_append.mp hi with hi | hi
  · exact small_instructionItems hm hn _ _ (by omega) i hi
  · split at hi
    · cases hi
    · obtain rfl := List.mem_singleton.mp hi
      exact small_block (by decide) (small_labelItems f.blocks 0 (by omega))

/-- The numbers in the items of a module are small if there is not too much of anything. -/
theorem listSmall_items {m : Module} {n : Nat} (hm : Sizes m n) (hn : n < 2 ^ 60)
    (hblocks : m.BlocksFit) : Item.ListSmall (items m) := by
  refine Item.listSmall_iff.mpr ?_
  intro i hi
  simp only [items, List.mem_cons, List.not_mem_nil, or_false] at hi
  rcases hi with rfl | rfl | rfl
  · refine small_block (by decide) ?_
    intro i hi
    simp only [List.mem_cons, List.not_mem_nil, or_false] at hi
    rcases hi with rfl | rfl
    · exact small_text _ (by decide) (by simp)
    · exact small_record (by decide) (by decide)
  · refine small_block (by decide) ?_
    intro i hi
    simp only [List.append_assoc, List.mem_append, List.mem_cons, List.not_mem_nil,
      or_false] at hi
    rcases hi with rfl | hi | (rfl | rfl) | hi | hi | hi | hi
    · exact small_record (by decide) (by decide)
    · exact small_attributeItems _ i hi
    · exact small_typesItem hm hn
    · exact small_text _ (by decide) (by simp)
    · refine small_functionItems hm hn _ _ ?_ i hi
      rw [Nat.zero_add]
      exact hm.names
    · exact small_constantsItem hm hn i hi
    · exact small_flagItems hm hn i hi
    · obtain ⟨f, hf, rfl⟩ := List.mem_map.mp hi
      exact small_bodyItem hm hn hf (hblocks f hf)
  · refine small_block (by decide) ?_
    intro i hi
    simp only [List.mem_cons, List.not_mem_nil, or_false] at hi
    rcases hi with rfl | rfl
    · exact (by decide : StringTableCode.blob < 2 ^ 64)
    · trivial

/-- The items of a module fit if its bitcode is short. -/
theorem listFits_items {m : Module} (hblocks : m.BlocksFit)
    (hlength : (encode m).length < 2 ^ 34) : Item.ListFits (items m) := by
  have hcount := listCount_le_encode magic (forest_items_valid m)
  have hn : Item.listCount (items m) < 2 ^ 60 := by
    change _ ≤ 8 * (encode m).length at hcount
    omega
  exact listFits_of_encode (forest_items_valid m) (listSmall_items (sizes_items m) hn hblocks)
    hlength

end CircuitQir.Bitcode
