import CircuitQir.Bitcode.Decoding
import CircuitQir.Bitcode.Encoding
import CircuitQir.Proofs.Bitcode.Numbering
import CircuitQir.Proofs.Bitstream.Contents
import CircuitQir.Proofs.Checked
/-!
# Reading attributes, types and functions back

The records of a module block are taken in one after the other, so every stage has a statement of
its own: from tables that know what came before, the reader gets to tables that also know the
groups (`readBlock_groups`), the types (`readBlock_types`) or the functions
(`foldlM_functionItems`) of the module. What later records ask of the tables, a type by its number
above all, is answered as the layout has it (`signature_typeId`).
-/

namespace CircuitQir.Ir

/-- No string of the attribute has a zero among its bytes. -/
def Attribute.NulFree : Attribute → Prop
  | .flag key => 0 ∉ Utf8.encode key
  | .keyValue key value => 0 ∉ Utf8.encode key ∧ 0 ∉ Utf8.encode value

instance : DecidablePred Attribute.NulFree
  | .flag key => inferInstanceAs (Decidable (0 ∉ Utf8.encode key))
  | .keyValue key value =>
    inferInstanceAs (Decidable (0 ∉ Utf8.encode key ∧ 0 ∉ Utf8.encode value))

end CircuitQir.Ir

namespace CircuitQir.Bitcode

open Ir Bitstream

/-! ## Strings -/

theorem stringOf_encode (s : String) : stringOf ((Utf8.encode s).map UInt8.toNat) = .ok s := by
  have hrange : ((Utf8.encode s).map UInt8.toNat).all (· < 256) = true := by
    rw [List.all_eq_true]
    intro n hn
    obtain ⟨b, -, rfl⟩ := List.mem_map.mp hn
    exact decide_eq_true b.toNat_lt
  have hbytes : ((Utf8.encode s).map UInt8.toNat).map UInt8.ofNat = Utf8.encode s := by
    rw [List.map_map]
    exact List.map_id'' (fun b => UInt8.ofNat_toNat) _
  rw [stringOf, if_pos hrange, hbytes, Utf8.decode?_encode]

/-- A string without a zero among its bytes ends where its zero stands. -/
theorem terminatedStringOf_terminated {s : String} (h : 0 ∉ Utf8.encode s) (rest : List Nat) :
    terminatedStringOf (terminated s ++ rest) = .ok (s, rest) := by
  have hne : ∀ n ∈ (Utf8.encode s).map UInt8.toNat, (n != 0) = true := by
    intro n hn
    obtain ⟨b, hb, rfl⟩ := List.mem_map.mp hn
    simp only [bne_iff_ne, ne_eq]
    intro hzero
    obtain rfl : b = 0 := UInt8.toNat_inj.mp hzero
    exact h hb
  have happ : terminated s ++ rest = (Utf8.encode s).map UInt8.toNat ++ 0 :: rest := by
    simp [terminated]
  have htake : (terminated s ++ rest).takeWhile (· != 0) = (Utf8.encode s).map UInt8.toNat := by
    rw [happ, List.takeWhile_append_of_pos hne]
    simp
  have hdrop : (terminated s ++ rest).dropWhile (· != 0) = 0 :: rest := by
    rw [happ, List.dropWhile_append_of_pos hne]
    simp
  have hcontains : (terminated s ++ rest).contains 0 = true := by
    simp [terminated]
  rw [terminatedStringOf, if_pos hcontains, htake, hdrop, stringOf_encode]
  rfl

/-! ## Attribute groups -/

theorem attributesOf_flag {ops rest : List Nat} {key : String} {attributes : List Attribute}
    (hkey : terminatedStringOf ops = .ok (key, rest)) (hrest : attributesOf rest = .ok attributes) :
    attributesOf (AttributeCode.string :: ops) = .ok (.flag key :: attributes) := by
  rw [attributesOf]
  split
  · rename_i he
    rw [he] at hkey
    cases hkey
  · rename_i he
    rw [he] at hkey
    cases hkey
    show (attributesOf rest >>= fun as => pure (.flag key :: as)) = _
    rw [hrest]
    rfl

theorem attributesOf_keyValue {ops rest rest' : List Nat} {key value : String}
    {attributes : List Attribute} (hkey : terminatedStringOf ops = .ok (key, rest))
    (hvalue : terminatedStringOf rest = .ok (value, rest'))
    (hrest : attributesOf rest' = .ok attributes) :
    attributesOf (AttributeCode.stringPair :: ops) = .ok (.keyValue key value :: attributes) := by
  rw [attributesOf]
  split
  · rename_i he
    rw [he] at hkey
    cases hkey
  · rename_i he
    rw [he] at hkey
    cases hkey
    split
    · rename_i hkind
      exact absurd hkind (by decide)
    · split
      · rename_i he'
        rw [he'] at hvalue
        cases hvalue
      · rename_i he'
        rw [he'] at hvalue
        cases hvalue
        show (attributesOf rest' >>= fun as => pure (.keyValue key value :: as)) = _
        rw [hrest]
        rfl
    · rename_i hkind
      exact absurd rfl hkind

theorem attributesOf_attributeOps {attributes : List Attribute}
    (h : ∀ a ∈ attributes, a.NulFree) :
    attributesOf (attributes.flatMap attributeOps) = .ok attributes := by
  induction attributes with
  | nil => rw [List.flatMap_nil, attributesOf]
  | cons a attributes ih =>
    have hrest := ih fun b hb => h b (by simp [hb])
    have ha := h a (by simp)
    rw [List.flatMap_cons]
    cases a with
    | flag key => exact attributesOf_flag (terminatedStringOf_terminated ha _) hrest
    | keyValue key value =>
      rw [attributeOps, List.cons_append, List.append_assoc]
      exact attributesOf_keyValue (terminatedStringOf_terminated ha.1 _)
        (terminatedStringOf_terminated ha.2 _) hrest

/-- The operands of the record of a group. -/
def groupOps (g : AttributeGroup) : List Nat :=
  storedGroupId g :: functionPlace :: g.attributes.flatMap attributeOps

theorem groupOf_groupOps {g : AttributeGroup} (h : ∀ a ∈ g.attributes, a.NulFree) :
    groupOf (groupOps g) = .ok (storedGroupId g, g) := by
  have hlt := g.id.toNat_lt
  have hid : UInt32.ofNat (storedGroupId g - 1) = g.id := by
    rw [storedGroupId, Nat.add_sub_cancel, UInt32.ofNat_toNat]
  have hrange : ¬ (storedGroupId g = 0 ∨ 2 ^ 32 < storedGroupId g) := by
    unfold storedGroupId
    omega
  unfold groupOf groupOps
  dsimp only
  rw [if_neg (by simp), if_neg hrange, attributesOf_attributeOps h, hid]
  rfl

theorem attributeItems_defined (groups : List AttributeGroup) :
    ∀ i ∈ attributeItems groups, i.defined = [] := by
  unfold attributeItems
  split <;> simp [Item.defined]

theorem records_map {α : Type} (id : Nat) (f : α → Record) (xs : List α) :
    (Bitstream.Block.mk id (xs.map fun x => .record (f x))).records = xs.map f := by
  simp [Bitstream.Block.records, List.filterMap_map, Function.comp_def, Entry.record?]

namespace Tables

theorem foldlM_read_record (t : Tables) (r : Record) (es : List Entry) :
    (Entry.record r :: es).foldlM read t = t.readRecord r >>= fun t => es.foldlM read t := rfl

theorem foldlM_read_block (t : Tables) (id : Nat) (entries es : List Entry) :
    (Entry.block id entries :: es).foldlM read t =
      t.readBlock ⟨id, entries⟩ >>= fun t => es.foldlM read t := rfl

theorem readBlock_groups (t : Tables) {groups : List AttributeGroup}
    (h : ∀ g ∈ groups, ∀ a ∈ g.attributes, a.NulFree) :
    t.readBlock ⟨BlockId.attributeGroups,
        groups.map fun g => .record ⟨AttributeCode.group, groupOps g, none⟩⟩ =
      .ok { t with groups := t.groups ++ groups.map fun g => (storedGroupId g, g) } := by
  have hgroups : (groups.map fun g => Record.mk AttributeCode.group (groupOps g) none).mapM
      (fun r => groupOf r.ops) = .ok (groups.map fun g => (storedGroupId g, g)) := by
    rw [List.mapM_map]
    exact mapM_ok fun g hg => groupOf_groupOps (h g hg)
  unfold readBlock
  simp only [records_map]
  rw [List.filter_eq_self.mpr (by simp), hgroups]
  rfl

theorem readBlock_lists (t : Tables) (groups : List AttributeGroup) :
    t.readBlock ⟨BlockId.attributeLists,
        groups.map fun g => .record ⟨AttributeCode.list, [storedGroupId g], none⟩⟩ =
      .ok { t with
        attributeLists := t.attributeLists ++ groups.map fun g => [storedGroupId g] } := by
  unfold readBlock
  simp only [records_map]
  rw [List.filter_eq_self.mpr (by simp), List.map_map]
  rfl

/-- Reading the groups of a module and the lists that consist of one of them each. -/
theorem read_attributeItems (t : Tables) {groups : List AttributeGroup}
    (h : ∀ g ∈ groups, ∀ a ∈ g.attributes, a.NulFree) :
    (Item.listEntries [] (attributeItems groups)).foldlM read t =
      .ok { t with
        groups := t.groups ++ groups.map fun g => (storedGroupId g, g)
        attributeLists := t.attributeLists ++ groups.map fun g => [storedGroupId g] } := by
  unfold attributeItems
  split
  · rename_i hempty
    obtain rfl : groups = [] := by simpa using hempty
    simp [Item.listEntries, pure, Except.pure]
  · simp only [Item.listEntries, Item.entries, List.append_nil, List.singleton_append,
      Item.listEntries_records, foldlM_read_block, List.foldlM_nil]
    have hgroups := readBlock_groups t h
    simp only [groupOps] at hgroups
    rw [hgroups]
    exact congrArg (· >>= pure) (readBlock_lists _ groups)

end Tables

/-- The list of a group id leads back to the id, if a group has it. -/
theorem attributes_attributeList {t : Tables} {groups : List AttributeGroup}
    (hgroups : t.groups = groups.map fun g => (storedGroupId g, g))
    (hlists : t.attributeLists = groups.map fun g => [storedGroupId g]) (id : Option UInt32) :
    t.attributes (attributeList groups id) =
      .ok (id.filter fun id => groups.any (·.id == id)) := by
  cases id with
  | none => rfl
  | some id =>
    cases hi : groups.findIdx? (·.id == id) with
    | none =>
      have hany : groups.any (·.id == id) = false := by
        rw [List.any_eq_false]
        simpa using List.findIdx?_eq_none_iff.mp hi
      simp [attributeList, hi, Tables.attributes, Option.filter, hany]
    | some i =>
      obtain ⟨hlt, hid, -⟩ := List.findIdx?_eq_some_iff_getElem.mp hi
      have hany : groups.any (·.id == id) = true :=
        List.any_eq_true.mpr ⟨_, List.getElem_mem hlt, hid⟩
      have hstored : ∀ g : AttributeGroup, decide (storedGroupId g = storedGroupId groups[i]) =
          (g.id == id) := by
        intro g
        have : groups[i].id = id := by simpa using hid
        rw [Bool.eq_iff_iff, decide_eq_true_eq, beq_iff_eq, storedGroupId, storedGroupId, this,
          Nat.add_right_cancel_iff, UInt32.toNat_inj]
      have hfind : t.groups.find? (·.1 = storedGroupId groups[i]) =
          (groups.find? (·.id == id)).map fun g => (storedGroupId g, g) := by
        rw [hgroups, List.find?_map]
        congr 2
        funext g
        exact hstored g
      obtain ⟨g, hg⟩ :=
        Option.isSome_iff_exists.mp (List.find?_isSome.mpr (List.any_eq_true.mp hany))
      have hgid : g.id = id := by simpa using List.find?_some hg
      have hlist : t.attributeLists[i]? = some [storedGroupId groups[i]] := by
        rw [hlists, List.getElem?_map, List.getElem?_eq_getElem hlt]
        rfl
      rw [hg] at hfind
      simp [attributeList, hi, Tables.attributes, hlist, hfind, Option.filter, hany, hgid]

/-! ## Types -/

/-- The entry that a reader of the types of a layout makes of one of them. -/
def TypeEntry.ofStored (l : Layout) : StoredType → TypeEntry
  | .void => .void
  | .int width => .int width
  | .double => .double
  | .ptr => .ptr
  | .function result params =>
    .function (l.typeId (.ofResult result)) (params.map fun p => l.typeId (.ofValueType p))

/-- The types of the tables are those of the layout, under the same numbers. -/
def Tables.HasTypes (t : Tables) (l : Layout) : Prop := t.types = l.types.map (.ofStored l)

theorem typeOf_typeItem (l : Layout) (s : StoredType) :
    ∃ r : Record, typeItem l s = .record r.code r.ops ∧ r.blob = none ∧
      typeOf r = .ok (some (.ofStored l s)) := by
  cases s with
  | void => exact ⟨⟨TypeCode.void, [], none⟩, rfl, rfl, rfl⟩
  | int width => exact ⟨⟨TypeCode.integer, [width], none⟩, rfl, rfl, rfl⟩
  | double => exact ⟨⟨TypeCode.double, [], none⟩, rfl, rfl, rfl⟩
  | ptr => exact ⟨⟨TypeCode.pointer, [0], none⟩, rfl, rfl, rfl⟩
  | function result params => exact ⟨⟨TypeCode.function, _, none⟩, rfl, rfl, rfl⟩

theorem mapM_typeOf_typeItems (l : Layout) (types : List StoredType) :
    (Item.records (types.map (typeItem l))).mapM typeOf =
      .ok (types.map fun s => some (.ofStored l s)) := by
  induction types with
  | nil => rfl
  | cons s types ih =>
    obtain ⟨⟨code, ops, blob⟩, hitem, rfl, htype⟩ := typeOf_typeItem l s
    rw [List.map_cons, hitem, Item.records_record, List.mapM_cons, htype, ih]
    rfl

namespace Tables

/-- Reading the types of a module. -/
theorem read_typesItem (t : Tables) (l : Layout) :
    (Item.listEntries [] [typesItem l]).foldlM read t =
      .ok { t with types := t.types ++ l.types.map (.ofStored l) } := by
  have hmap : (Item.records (.record TypeCode.count [l.types.length] ::
      l.types.map (typeItem l))).mapM typeOf =
        .ok (none :: l.types.map fun s => some (.ofStored l s)) := by
    rw [Item.records_record, List.mapM_cons, mapM_typeOf_typeItems]
    rfl
  show ((do
    let es ← (Item.records (.record TypeCode.count [l.types.length] ::
      l.types.map (typeItem l))).mapM typeOf
    return { t with types := t.types ++ es.filterMap id }) >>= pure) = _
  rw [hmap]
  show Except.ok { t with types := t.types ++
    (none :: l.types.map fun s => some (TypeEntry.ofStored l s)).filterMap id } = _
  rw [List.filterMap_cons_none rfl, List.filterMap_map]
  show Except.ok { t with types := t.types ++ l.types.filterMap (some ∘ TypeEntry.ofStored l) } = _
  rw [List.filterMap_eq_map]

variable {t : Tables} {m : Module} (htypes : t.HasTypes (.ofModule m))
include htypes

theorem typeEntry_typeId {s : StoredType} (hs : s ∈ (Layout.ofModule m).types) :
    t.typeEntry ((Layout.ofModule m).typeId s) = .ok (.ofStored (.ofModule m) s) := by
  rw [typeEntry, htypes, List.getElem?_map, Layout.types_typeId hs]
  rfl

theorem valueType_typeId (v : ValueType) :
    t.valueType ((Layout.ofModule m).typeId (.ofValueType v)) = .ok v := by
  rw [valueType, typeEntry_typeId htypes (Layout.basic_mem m (by cases v <;> decide))]
  cases v <;> rfl

theorem resultType_typeId (result : Option ValueType) :
    t.resultType ((Layout.ofModule m).typeId (.ofResult result)) = .ok result := by
  have hmem : StoredType.ofResult result ∈ (Layout.ofModule m).types := by
    refine Layout.basic_mem m ?_
    cases result with
    | none => decide
    | some v => cases v <;> decide
  rw [resultType, typeEntry_typeId htypes hmem]
  cases result with
  | none => rfl
  | some v =>
    have hvalue := valueType_typeId htypes v
    show _ = Except.ok (some v)
    cases v <;> (simp only [StoredType.ofResult]; rw [hvalue]; rfl)

/-- The number of a function type leads back to its result and its parameters. -/
theorem signature_typeId {result : Option ValueType} {params : List ValueType}
    (hmem : .function result params ∈ (Layout.ofModule m).types) :
    t.signature ((Layout.ofModule m).typeId (.function result params)) =
      .ok (result, params) := by
  have hparams : (params.map fun p => (Layout.ofModule m).typeId (.ofValueType p)).mapM
      t.valueType = .ok params := by
    rw [List.mapM_map, mapM_ok (g := id), List.map_id]
    exact fun v _ => valueType_typeId htypes v
  rw [signature, typeEntry_typeId htypes hmem]
  show (do
    let params ← (params.map fun p => (Layout.ofModule m).typeId (.ofValueType p)).mapM t.valueType
    return (← t.resultType ((Layout.ofModule m).typeId (.ofResult result)), params)) = _
  rw [hparams, resultType_typeId htypes]
  rfl

end Tables

/-! ## Functions -/

/-- The entry that a reader makes of a function, whose attributes are lost if no group has their
id. -/
def FunctionEntry.ofCallable (l : Layout) (groups : List AttributeGroup) (c : Callable) :
    FunctionEntry :=
  ⟨c.name, l.typeId c.type, c.isDeclaration, c.attributes.filter fun id => groups.any (·.id == id)⟩

namespace Tables

theorem name_of_strings {t : Tables} {front rest : List UInt8} {s : String}
    (h : t.strings = front ++ (Utf8.encode s ++ rest)) :
    t.name front.length (Utf8.encode s).length = .ok s := by
  have hle : front.length + (Utf8.encode s).length ≤ t.strings.length := by
    rw [h]
    simp
  rw [name, if_pos hle, h, List.drop_left' rfl, List.take_left' rfl, Utf8.decode?_encode]

/-- The tables after the records of some functions. -/
def addFunctions (t : Tables) (fs : List FunctionEntry) : Tables :=
  { t with
    values := t.values ++ (List.range' t.functions.length fs.length).map .function
    functions := t.functions ++ fs }

theorem addFunctions_addFunctions (t : Tables) (fs gs : List FunctionEntry) :
    (t.addFunctions fs).addFunctions gs = t.addFunctions (fs ++ gs) := by
  simp [addFunctions, ← List.map_append, List.range'_append_1]

/-- Reading the functions of a module. Their names are taken from the string table piece by
piece. -/
theorem read_functionItems {m : Module} (groups : List AttributeGroup) :
    ∀ (cs : List Callable) (front rest : List UInt8) {t : Tables}, t.HasTypes (.ofModule m) →
      t.groups = groups.map (fun g => (storedGroupId g, g)) →
      t.attributeLists = groups.map (fun g => [storedGroupId g]) →
      t.strings = front ++ (cs.flatMap fun c => Utf8.encode c.name) ++ rest →
      (∀ c ∈ cs, c.type ∈ (Layout.ofModule m).types) →
      (Item.listEntries [] (functionItems (.ofModule m) groups front.length cs)).foldlM read t =
        .ok (t.addFunctions (cs.map (.ofCallable (.ofModule m) groups)))
  | [], _, _, t, _, _, _, _, _ => by
    simp [functionItems, Item.listEntries, addFunctions, pure, Except.pure]
  | c :: cs, front, rest, t, htypes, hgroups, hlists, hstrings, hcs => by
    have hname : t.name front.length (Utf8.encode c.name).length = .ok c.name := by
      have hsplit : t.strings = front ++ (Utf8.encode c.name ++
          ((cs.flatMap fun c => Utf8.encode c.name) ++ rest)) := by
        simpa using hstrings
      exact name_of_strings hsplit
    have htype := typeEntry_typeId htypes (hcs c (by simp))
    have hattributes := attributes_attributeList hgroups hlists c.attributes
    have hrecord : t.readRecord ⟨ModuleCode.function,
        [front.length, (Utf8.encode c.name).length, (Layout.ofModule m).typeId c.type, 0,
          c.isDeclaration.toNat, 0, attributeList groups c.attributes] ++ List.replicate 12 0,
        none⟩ = .ok (t.addFunctions [.ofCallable (.ofModule m) groups c]) := by
      have hdeclaration : decide (c.isDeclaration.toNat ≠ 0) = c.isDeclaration := by
        cases c.isDeclaration <;> rfl
      refine (bind_of_ok hname _).trans ((bind_of_ok htype _).trans ?_)
      refine (bind_of_ok hattributes _).trans ?_
      show Except.ok { t with
        values := t.values ++ [Value.function t.functions.length]
        functions := t.functions ++ [FunctionEntry.mk c.name ((Layout.ofModule m).typeId c.type)
          (decide (c.isDeclaration.toNat ≠ 0)) _] } = _
      rw [hdeclaration]
      rfl
    have hnext := read_functionItems groups cs (front ++ Utf8.encode c.name) rest
      (t := t.addFunctions [.ofCallable (.ofModule m) groups c]) htypes hgroups hlists
      (by simpa [addFunctions] using hstrings) fun d hd => hcs d (by simp [hd])
    rw [List.length_append] at hnext
    rw [functionItems, Item.listEntries_record, foldlM_read_record, hrecord]
    refine hnext.trans ?_
    rw [addFunctions_addFunctions]
    rfl

end Tables

end CircuitQir.Bitcode
