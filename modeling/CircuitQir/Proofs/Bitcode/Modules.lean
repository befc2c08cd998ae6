import CircuitQir.Proofs.Bitcode.Bodies
/-!
# Reading modules back

The parts of a module block one after the other. The reader ends up with tables that say all the
module says (`Tables.ofModule`), and from these the module is put together again.
-/

namespace CircuitQir.Ir

/-- What the bitcode of a module presupposes: every attribute id belongs to a group, attributes
hold no zero, and returns stand at the ends of blocks. -/
structure Module.Writable (m : Module) : Prop where
  declarations_resolved : ∀ d ∈ m.declarations, ∀ id ∈ d.attributes,
    ∃ g ∈ m.attributeGroups, g.id = id
  functions_resolved : ∀ f ∈ m.functions, ∀ id ∈ f.attributes, ∃ g ∈ m.attributeGroups, g.id = id
  nulFree : ∀ g ∈ m.attributeGroups, ∀ a ∈ g.attributes, a.NulFree
  shaped : ∀ f ∈ m.functions, f.Shaped

/-- What of that can be done with less: instructions may lie in blocks as in filled ones. -/
structure Module.Restorable (m : Module) : Prop where
  declarations_resolved : ∀ d ∈ m.declarations, ∀ id ∈ d.attributes,
    ∃ g ∈ m.attributeGroups, g.id = id
  functions_resolved : ∀ f ∈ m.functions, ∀ id ∈ f.attributes, ∃ g ∈ m.attributeGroups, g.id = id
  nulFree : ∀ g ∈ m.attributeGroups, ∀ a ∈ g.attributes, a.NulFree
  filled : ∀ f ∈ m.functions, Filled (f.blocks.map (·.instructions))

namespace Module

variable {m : Module}

theorem Writable.restorable (h : m.Writable) : m.Restorable :=
  ⟨h.declarations_resolved, h.functions_resolved, h.nulFree, fun f hf => (h.shaped f hf).filled⟩

theorem Writable.blocksFit (h : m.Writable) : m.BlocksFit :=
  fun f hf => Bitcode.blocksFit_of_shaped (h.shaped f hf)

/-- What is asked of blocks and of calls concerns the body of one function at a time. -/
theorem fitsBody_iff : (∀ f ∈ m.functions, m.FitsBody f) ↔ m.BlocksFit ∧ m.CallsFit := by
  constructor
  · intro h
    refine ⟨fun f hf => (h f hf).1, fun i hi => ?_⟩
    obtain ⟨f, hf, hi⟩ := List.mem_flatMap.mp hi
    exact (h f hf).2 i hi
  · rintro ⟨hblocks, hcalls⟩ f hf
    exact ⟨hblocks f hf, fun i hi => hcalls i (List.mem_flatMap.mpr ⟨f, hf, hi⟩)⟩

end Module

end CircuitQir.Ir

namespace CircuitQir.Bitcode

open Ir Bitstream

/-! ## The parts of a module block -/

theorem functionItems_records (l : Layout) (groups : List AttributeGroup) :
    ∀ (cs : List Callable) (offset : Nat), ∀ i ∈ functionItems l groups offset cs, i.IsRecord
  | [], _, _, hi => nomatch hi
  | c :: cs, offset, i, hi => by
    rcases List.mem_cons.mp hi with rfl | hi
    · exact ⟨_, _, rfl⟩
    · exact functionItems_records l groups cs _ i hi

theorem constantsItem_defined (l : Layout) : ∀ i ∈ constantsItem l, i.defined = [] := by
  unfold constantsItem
  split <;> simp [Item.defined]

theorem flagItems_defined (l : Layout) (flags : List ModuleFlag) :
    ∀ i ∈ flagItems l flags, i.defined = [] := by
  unfold flagItems
  split <;> simp [Item.defined]

/-- The entries of the module block. -/
def moduleEntries (m : Module) : List Entry :=
  let l := Layout.ofModule m
  .record ⟨ModuleCode.version, [formatVersion], none⟩ ::
    (Item.listEntries [] (attributeItems m.attributeGroups) ++
      (Item.listEntries [] [typesItem l] ++
        (.record ⟨ModuleCode.sourceName, (Utf8.encode m.sourceName).map UInt8.toNat, none⟩ ::
          (Item.listEntries [] (functionItems l m.attributeGroups 0 l.callables) ++
            (Item.listEntries [] (constantsItem l) ++
              (Item.listEntries [] (flagItems l m.flags) ++
                Item.listEntries [] (m.functions.map (bodyItem l))))))))

theorem block?_moduleItem (m : Module) :
    (moduleItem (.ofModule m) m).block? = some ⟨BlockId.module, moduleEntries m⟩ := by
  have hcut : [Item.record ModuleCode.version [formatVersion]] ++
      attributeItems m.attributeGroups ++
      [typesItem (.ofModule m), .text ModuleCode.sourceName [] m.sourceName] ++
      functionItems (.ofModule m) m.attributeGroups 0 (Layout.ofModule m).callables ++
      constantsItem (.ofModule m) ++ flagItems (.ofModule m) m.flags ++
      m.functions.map (bodyItem (.ofModule m)) =
    .record ModuleCode.version [formatVersion] :: (attributeItems m.attributeGroups ++
      ([typesItem (.ofModule m)] ++ (.text ModuleCode.sourceName [] m.sourceName ::
        (functionItems (.ofModule m) m.attributeGroups 0 (Layout.ofModule m).callables ++
          (constantsItem (.ofModule m) ++ (flagItems (.ofModule m) m.flags ++
            m.functions.map (bodyItem (.ofModule m)))))))) := by
    simp
  rw [moduleItem, Item.block?, hcut, Item.listEntries_record,
    Item.listEntries_append [] (attributeItems_defined _),
    Item.listEntries_append [] (by simp [typesItem, Item.defined]), Item.text,
    Item.listEntries_record,
    Item.listEntries_append [] (fun i hi => (functionItems_records _ _ _ _ i hi).defined_eq),
    Item.listEntries_append [] (constantsItem_defined _),
    Item.listEntries_append [] (flagItems_defined _ _)]
  rfl

/-! ## The tables of a module -/

namespace Tables

/-- The tables that a module is read into, apart from the bodies of its functions. -/
def declared (m : Module) : Tables where
  strings := (Layout.ofModule m).stringTable
  sourceName := m.sourceName
  types := (Layout.ofModule m).types.map (.ofStored (.ofModule m))
  groups := m.attributeGroups.map fun g => (storedGroupId g, g)
  attributeLists := m.attributeGroups.map fun g => [storedGroupId g]
  functions := (Callable.all m).map (.ofCallable (.ofModule m) m.attributeGroups)
  values := (Layout.ofModule m).values
  flags := m.flags
  bodies := []

theorem knows_declared (m : Module) : (declared m).Knows m := ⟨rfl, rfl, rfl⟩

theorem readRecord_sourceName (t : Tables) (s : String) :
    t.readRecord ⟨ModuleCode.sourceName, (Utf8.encode s).map UInt8.toNat, none⟩ =
      .ok { t with sourceName := s } := by
  show (stringOf _ >>= fun name => pure { t with sourceName := name }) = _
  rw [stringOf_encode]
  rfl

theorem foldlM_read_append {t t' : Tables} {es : List Entry} (h : es.foldlM read t = .ok t')
    (es' : List Entry) : (es ++ es').foldlM read t = es'.foldlM read t' := by
  rw [List.foldlM_append, h]
  rfl

/-- Reading a module comes down to reading its bodies. -/
theorem read_moduleEntries {m : Module}
    (h : ∀ g ∈ m.attributeGroups, ∀ a ∈ g.attributes, a.NulFree) :
    (moduleEntries m).foldlM read (empty (Layout.ofModule m).stringTable) =
      (Item.listEntries [] (m.functions.map (bodyItem (.ofModule m)))).foldlM read
        (declared m) := by
  have hfunctions := read_functionItems (m := m) m.attributeGroups (Callable.all m) [] []
    (t := { declared m with functions := [], values := [], flags := [] })
    rfl rfl rfl (by simp [declared, Layout.stringTable, Layout.callables_ofModule])
    fun c hc => Layout.callable_mem m hc
  have hadd : addFunctions { declared m with functions := [], values := [], flags := [] }
      ((Callable.all m).map (.ofCallable (.ofModule m) m.attributeGroups)) =
      { declared m with
        values := (List.range' 0 (Layout.ofModule m).callables.length).map .function
        flags := [] } := by
    simp [addFunctions, declared, Layout.callables_ofModule]
  have hconstants := read_constantsItem (m := m) (t := { declared m with
    values := (List.range' 0 (Layout.ofModule m).callables.length).map .function, flags := [] })
    rfl (by simp)
  have hflags := read_flagItems (m := m) (t := { declared m with flags := [] })
    ((List.range' 0 (Layout.ofModule m).callables.length).map .function) (by simp) rfl
  unfold moduleEntries
  rw [foldlM_read_record]
  refine (foldlM_read_append (read_attributeItems _ h) _).trans ?_
  refine (foldlM_read_append (read_typesItem _ _) _).trans ?_
  rw [foldlM_read_record, readRecord_sourceName]
  refine (foldlM_read_append hfunctions _).trans ?_
  rw [hadd]
  refine (foldlM_read_append hconstants _).trans ?_
  exact foldlM_read_append hflags _

end Tables

/-! ## From tables to a module -/

/-- An attribute id with a group is not lost. -/
theorem filter_resolved {groups : List AttributeGroup} {id : Option UInt32}
    (h : ∀ i ∈ id, ∃ g ∈ groups, g.id = i) :
    (id.filter fun i => groups.any (·.id == i)) = id := by
  cases id with
  | none => rfl
  | some i =>
    obtain ⟨g, hg, hid⟩ := h i rfl
    exact Option.filter_some_pos (List.any_eq_true.mpr ⟨g, hg, beq_iff_eq.mpr hid⟩)

namespace Tables

variable {t : Tables} {m : Module} (ht : t.HasTypes (.ofModule m))
include ht

theorem assemble_functions : ∀ fs : List Function,
    (∀ f ∈ fs, f ∈ m.functions ∧ ∀ id ∈ f.attributes, ∃ g ∈ m.attributeGroups, g.id = id) →
    t.assemble (fs.map fun f => .ofCallable (.ofModule m) m.attributeGroups (.ofFunction f))
      (fs.map (·.blocks)) = .ok ([], fs)
  | [], _ => rfl
  | f :: fs, h => by
    obtain ⟨hf, hresolved⟩ := h f (by simp)
    have hmem : Callable.ofFunction f ∈ Callable.all m :=
      List.mem_append_right _ (List.mem_map_of_mem hf)
    have hsignature := signature_typeId ht (Layout.callable_mem m hmem)
    rw [List.map_cons, List.map_cons, assemble]
    refine (bind_of_ok hsignature _).trans ?_
    refine (bind_of_ok (assemble_functions fs fun g hg => h g (by simp [hg])) _).trans ?_
    exact congrArg (fun id => Except.ok ([], Function.mk f.name f.result id f.blocks :: fs))
      (filter_resolved hresolved)

theorem assemble_declarations {fs : List FunctionEntry} {bodies : List (List Ir.Block)}
    {gs : List Function} (hfs : t.assemble fs bodies = .ok ([], gs)) : ∀ ds : List Declaration,
    (∀ d ∈ ds, d ∈ m.declarations ∧ ∀ id ∈ d.attributes, ∃ g ∈ m.attributeGroups, g.id = id) →
    t.assemble ((ds.map fun d => .ofCallable (.ofModule m) m.attributeGroups (.ofDeclaration d)) ++
      fs) bodies = .ok (ds, gs)
  | [], _ => hfs
  | d :: ds, h => by
    obtain ⟨hd, hresolved⟩ := h d (by simp)
    have hmem : Callable.ofDeclaration d ∈ Callable.all m :=
      List.mem_append_left _ (List.mem_map_of_mem hd)
    have hsignature := signature_typeId ht (Layout.callable_mem m hmem)
    rw [List.map_cons, List.cons_append, assemble]
    refine (bind_of_ok hsignature _).trans ?_
    refine (bind_of_ok (assemble_declarations hfs ds fun e he => h e (by simp [he])) _).trans ?_
    exact congrArg (fun id => Except.ok (Declaration.mk d.name d.params d.result id :: ds, gs))
      (filter_resolved hresolved)

omit ht in
/-- The tables of a module describe the module. -/
theorem toModule_declared (h : m.Restorable) :
    toModule { declared m with bodies := m.functions.map (·.blocks) } = .ok m := by
  have htypes : HasTypes { declared m with bodies := m.functions.map (·.blocks) }
    (.ofModule m) := rfl
  have hall := assemble_declarations htypes
    (assemble_functions htypes m.functions fun f hf => ⟨hf, h.functions_resolved f hf⟩)
    m.declarations fun d hd => ⟨hd, h.declarations_resolved d hd⟩
  have hgroups : (m.attributeGroups.map fun g => (storedGroupId g, g)).map (·.2) =
      m.attributeGroups := by
    rw [List.map_map]
    exact List.map_id _
  have hcut : (declared m).functions =
      (m.declarations.map fun d => .ofCallable (.ofModule m) m.attributeGroups
        (.ofDeclaration d)) ++ m.functions.map fun f =>
          .ofCallable (.ofModule m) m.attributeGroups (.ofFunction f) := by
    simp [declared, Callable.all, Function.comp_def]
  rw [← hcut] at hall
  refine (bind_of_ok hall _).trans ?_
  exact congrArg (fun groups => Except.ok (⟨m.sourceName, m.declarations, m.functions, groups,
    m.flags⟩ : Ir.Module)) hgroups

end Tables

/-! ## Whole files -/

theorem forest_items (m : Module) : Item.forest (items m) =
    [⟨BlockId.identification, Item.listEntries []
        [.text IdentificationCode.producer [] producer, .record IdentificationCode.epoch [0]]⟩,
      ⟨BlockId.module, moduleEntries m⟩,
      ⟨BlockId.stringTable,
        [.record ⟨StringTableCode.blob, [], some (Layout.ofModule m).stringTable⟩]⟩] := by
  simp only [items, Item.forest, List.filterMap_cons, block?_moduleItem]
  rfl

theorem moduleOf_forest (m : Module) : moduleOf (Item.forest (items m)) =
    ((moduleEntries m).foldlM Tables.read (.empty (Layout.ofModule m).stringTable)) >>=
      Tables.toModule := by
  rw [forest_items]
  rfl

/-- The blocks of a module whose bodies fit describe the module. -/
theorem moduleOf_forest_items {m : Module} (h : m.Restorable) (hfit : m.BlocksFit ∧ m.CallsFit) :
    moduleOf (Item.forest (items m)) = .ok m := by
  have hbodies := Tables.read_bodyItems m.functions [] (Tables.knows_declared m) rfl rfl
    fun f hf => ⟨h.filled f hf, Module.fitsBody_iff.mpr hfit f hf⟩
  rw [moduleOf_forest, Tables.read_moduleEntries h.nulFree, hbodies]
  exact Tables.toModule_declared h

/-- The blocks of a module with a body that does not fit describe no module. -/
theorem moduleOf_forest_items_error {m : Module} (h : m.Restorable)
    (hfit : ¬ (m.BlocksFit ∧ m.CallsFit)) :
    ∃ e, moduleOf (Item.forest (items m)) = .error e := by
  have hmisfit : ∃ f ∈ m.functions, ¬ m.FitsBody f := by
    simpa only [not_forall, exists_prop] using mt Module.fitsBody_iff.mp hfit
  obtain ⟨e, he⟩ := Tables.read_bodyItems_error m.functions []
    (Tables.knows_declared m) rfl rfl h.filled hmisfit
  rw [moduleOf_forest, Tables.read_moduleEntries h.nulFree, he]
  exact ⟨e, rfl⟩

end CircuitQir.Bitcode
