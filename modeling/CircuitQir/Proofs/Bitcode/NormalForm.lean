import CircuitQir.Proofs.Bitcode.Outline
import CircuitQir.Proofs.Bitcode.Stability
import CircuitQir.Proofs.Bitcode.Steps
/-!
# The normal form of bitcode

The bitcode of a module may be read as another module: ids without a group are lost, a string with
a zero inside is cut in two, and instructions behind a return go to the next block. But what is
read has the outline of the module, so it has the same bitcode (`encode_of_decode_encode`). Read
and written again, bitcode stays as it is.

The module that is read is found by undoing these changes beforehand: the groups are replaced by
those their records are read as (`groups_of_read`), the ids by those with a group
(`Module.resolved`), and the blocks by those that the instructions are put in
(`functions_of_read_bodyItems`). None of this changes the outline, and the result is restorable.
-/

namespace CircuitQir.Bitcode

open Ir Bitstream

/-! ## Attribute groups -/

/-- A string ends at its zero. -/
theorem terminated_of_terminatedStringOf {ops rest : List Nat} {s : String}
    (h : terminatedStringOf ops = .ok (s, rest)) : terminated s ++ rest = ops := by
  unfold terminatedStringOf at h
  split at h
  · rename_i hzero
    obtain ⟨s', hs', h⟩ := bind_eq_ok h
    obtain ⟨rfl, rfl⟩ := Prod.mk.inj (Except.ok.inj h)
    have hsplit := List.takeWhile_append_dropWhile (p := (· != 0)) (l := ops)
    cases hdrop : ops.dropWhile (· != 0) with
    | nil =>
      rw [hdrop, List.append_nil] at hsplit
      have hmem : 0 ∈ ops := List.contains_iff_mem.mp hzero
      rw [← hsplit] at hmem
      exact absurd (List.all_eq_true.mp List.all_takeWhile 0 hmem) (by decide)
    | cons n rest =>
      have hn : n = 0 := by
        have hhead := List.head?_dropWhile_not (· != 0) ops
        rw [hdrop] at hhead
        simpa using hhead
      rw [terminated, encode_of_stringOf hs', List.append_assoc]
      rw [hdrop, hn] at hsplit
      exact hsplit
  · cases h

/-- Operands that spell out attributes are the operands of these attributes. -/
theorem attributeOps_of_attributesOf (ops : List Nat) : ∀ {attributes : List Attribute},
    attributesOf ops = .ok attributes → attributes.flatMap attributeOps = ops := by
  fun_induction attributesOf ops with
  | case1 =>
    intro attributes h
    obtain rfl := Except.ok.inj h
    rfl
  | case3 ops key rest hkey ih =>
    intro attributes h
    obtain ⟨others, hothers, h⟩ := bind_eq_ok h
    obtain rfl := Except.ok.inj h
    rw [List.flatMap_cons, ih hothers, attributeOps, List.cons_append,
      terminated_of_terminatedStringOf hkey]
  | case5 ops key rest hkey value rest' hvalue ih =>
    intro attributes h
    obtain ⟨others, hothers, h⟩ := bind_eq_ok h
    obtain rfl := Except.ok.inj h
    rw [List.flatMap_cons, ih hothers, attributeOps, List.cons_append, List.append_assoc,
      terminated_of_terminatedStringOf hvalue, terminated_of_terminatedStringOf hkey]
  | case2 | case4 | case6 =>
    intro attributes h
    cases h

/-- A record that is read as a group is the record of the group. -/
theorem groupOps_of_groupOf {ops : List Nat} {number : Nat} {g : AttributeGroup}
    (h : groupOf ops = .ok (number, g)) : groupOps g = ops := by
  unfold groupOf at h
  split at h
  · rename_i number place rest
    split at h
    · cases h
    · rename_i hplace
      split at h
      · cases h
      · rename_i hrange
        obtain ⟨attributes, hattributes, h⟩ := bind_eq_ok h
        obtain ⟨rfl, rfl⟩ := Prod.mk.inj (Except.ok.inj h)
        have hid : (UInt32.ofNat (number - 1)).toNat = number - 1 :=
          UInt32.toNat_ofNat_of_lt' (by simp only [UInt32.size]; omega)
        rw [groupOps, storedGroupId, attributeOps_of_attributesOf _ hattributes, hid,
          Nat.sub_add_cancel (by omega), ← not_not.mp hplace]
  · cases h

/-- Records of groups are read as groups with the same records. -/
theorem groups_of_read {t t' : Tables} {groups : List AttributeGroup}
    (h : (Item.listEntries [] (attributeItems groups)).foldlM Tables.read t = .ok t') :
    ∃ groups' : List AttributeGroup, groups'.map groupOps = groups.map groupOps ∧
      ∀ g ∈ groups', ∀ a ∈ g.attributes, a.NulFree := by
  unfold attributeItems at h
  split at h
  · rename_i hempty
    obtain rfl : groups = [] := List.isEmpty_iff.mp hempty
    exact ⟨[], rfl, by simp⟩
  · simp only [Item.listEntries, Item.entries, List.append_nil, List.singleton_append,
      Item.listEntries_records, Tables.foldlM_read_block] at h
    obtain ⟨t₁, ht₁, -⟩ := bind_eq_ok h
    obtain ⟨found, hfound, -⟩ := bind_eq_ok ht₁
    rw [records_map, List.filter_eq_self.mpr (by simp), List.mapM_map] at hfound
    refine ⟨found.map (·.2), ?_, List.forall_mem_map.mpr fun g hg => ?_⟩
    · rw [List.map_map]
      exact map_eq_of_mapM (fun g g' hg => groupOps_of_groupOf hg) hfound
    · obtain ⟨g', -, hg'⟩ := exists_of_mapM hfound g hg
      have hg' : groupOf (groupOps g') = .ok g := hg'
      exact nulFree_of_groupOf hg'

/-! ## Ids without a group -/

/-- The id, if a group has it. -/
def resolvedId (groups : List AttributeGroup) (id : Option UInt32) : Option UInt32 :=
  id.filter fun id => groups.any (·.id == id)

theorem exists_of_resolvedId {groups : List AttributeGroup} {id : Option UInt32} :
    ∀ i ∈ resolvedId groups id, ∃ g ∈ groups, g.id = i := by
  intro i hi
  obtain ⟨-, hany⟩ := Option.filter_eq_some_iff.mp hi
  obtain ⟨g, hg, hid⟩ := List.any_eq_true.mp hany
  exact ⟨g, hg, beq_iff_eq.mp hid⟩

/-- An id without a group is listed like none. -/
theorem attributeList_resolvedId (groups : List AttributeGroup) (id : Option UInt32) :
    attributeList groups (resolvedId groups id) = attributeList groups id := by
  cases id with
  | none => rfl
  | some id =>
    cases hany : groups.any (·.id == id) with
    | true => rw [resolvedId, Option.filter_some_pos (p := fun id => groups.any (·.id == id)) hany]
    | false =>
      have hindex : groups.findIdx? (·.id == id) = none := by
        rw [List.findIdx?_eq_none_iff]
        simpa using hany
      rw [resolvedId, Option.filter_some_neg (p := fun id => groups.any (·.id == id)) hany]
      simp [attributeList, hindex]

/-- The module with the ids that no group has left out. -/
def resolved (m : Module) : Module :=
  { m with
    declarations := m.declarations.map fun d =>
      { d with attributes := resolvedId m.attributeGroups d.attributes }
    functions := m.functions.map fun f =>
      { f with attributes := resolvedId m.attributeGroups f.attributes } }

theorem outline_resolved (m : Module) : Outline.ofModule (resolved m) = Outline.ofModule m := by
  have hcallables : (Callable.all (resolved m)).map (Callable.outline m.attributeGroups) =
      (Callable.all m).map (Callable.outline m.attributeGroups) := by
    simp only [Callable.all, resolved, List.map_append, List.map_map, Function.comp_def,
      Callable.ofDeclaration, Callable.ofFunction, Callable.outline, Callable.bare,
      attributeList_resolvedId]
  have hbodies : (resolved m).functions.map bodyOutline = m.functions.map bodyOutline := by
    rw [resolved, List.map_map]
    rfl
  rw [Outline.ofModule, Outline.ofModule, hbodies]
  exact congrArg (fun callables => Outline.mk _ callables _ _ _) hcallables

/-! ## Blocks -/

/-- What has been read of a body with the given labels: its instructions so far, and none of them
behind the current block. -/
structure Body.Laid (labels : List String) (is : List Instruction) (b : Body) : Prop where
  labels : b.blocks.map (·.label) = labels
  instructions : b.blocks.flatMap (·.instructions) = is
  rest : ∀ c ∈ b.blocks.drop (b.current + 1), c.instructions = []

theorem Body.Laid.append {labels : List String} {is : List Instruction} {b b' : Body}
    {i : Instruction} (hb : b.Laid labels is) (h : b.append i = .ok b') :
    b'.Laid labels (is ++ [i]) := by
  obtain ⟨front, label, js, rest, hblocks, hcurrent, rfl⟩ := exists_of_append h
  obtain ⟨hlabels, his, hrest⟩ := hb
  have hdrop (b : Ir.Block) : (front ++ b :: rest).drop (front.length + 1) = rest := by
    rw [List.drop_append]
    simp
  rw [hblocks] at hlabels his hrest
  rw [hcurrent, hdrop] at hrest
  have hempty : rest.flatMap (·.instructions) = [] := List.flatMap_eq_nil_iff.mpr hrest
  constructor
  · rw [← hlabels, List.map_append, List.map_append, List.map_cons, List.map_cons]
  · rw [← his, List.flatMap_append, List.flatMap_append, List.flatMap_cons, List.flatMap_cons,
      hempty]
    simp
  · intro c hc
    refine hrest c ?_
    have hle : front.length + 1 ≤ (if i.isTerminator then front.length + 1 else front.length) + 1 := by
      split <;> omega
    rw [← hdrop ⟨label, js ++ [i]⟩]
    exact (List.drop_suffix_drop_left _ hle).subset hc

theorem Body.Laid.foldlM_take {l : Layout} {labels : List String} :
    ∀ {js is : List Instruction} {b b' : Body}, b.Laid labels is →
      js.foldlM (Body.take l) b = .ok b' → b'.Laid labels (is ++ js)
  | [], is, b, b', hb, h => by
    obtain rfl := Except.ok.inj h
    rwa [List.append_nil]
  | j :: js, is, b, b', hb, h => by
    obtain ⟨b₁, hb₁, h⟩ := bind_eq_ok h
    have hnext : b₁.Laid labels (is ++ [j]) := by
      refine Laid.append ?_ hb₁
      exact ⟨hb.labels, hb.instructions, hb.rest⟩
    rw [List.append_cons]
    exact hnext.foldlM_take h

section Body

variable {t : Tables} {m : Module} (ht : t.Knows m) {f : Function} (hf : f ∈ m.functions)
  (hnext : t.defined[t.bodies.length]? =
    some (.ofCallable (.ofModule m) m.attributeGroups (.ofFunction f)))
include ht hf hnext

/-- The body of a function is read as blocks with its labels and its instructions. -/
theorem outline_of_bodyOf {blocks : List Ir.Block}
    (h : bodyOf t ⟨BlockId.function, bodyEntries (.ofModule m) f⟩ = .ok blocks) :
    (blocks.map (·.label), blocks.flatMap (·.instructions)) = bodyOutline f := by
  have hfits : m.FitsBody f := by
    by_contra hmisfit
    obtain ⟨e, he⟩ := bodyOf_bodyEntries_error ht hf hnext hmisfit
    rw [he] at h
    cases h
  rw [bodyOf_eq_take ht hf hnext hfits] at h
  obtain ⟨b, hb, rfl⟩ := map_eq_ok h
  have hstart : Body.Laid (f.blocks.map (·.label)) []
      ⟨t.values, f.blocks.map fun b => ⟨b.label, []⟩, 0⟩ := by
    refine ⟨by rw [List.map_map]; rfl, ?_, fun c hc => ?_⟩
    · rw [List.flatMap_map]
      exact List.flatMap_eq_nil_iff.mpr fun _ _ => rfl
    · obtain ⟨b, -, rfl⟩ := List.mem_map.mp (List.mem_of_mem_drop hc)
      rfl
  have hlaid := hstart.foldlM_take hb
  exact Prod.ext hlaid.labels hlaid.instructions

end Body

/-- The bodies of functions are read as blocks with the same outline that have been filled. -/
theorem functions_of_read_bodyItems {m : Module} : ∀ (todo done : List Function) {t t' : Tables},
    t.Knows m → m.functions = done ++ todo → t.bodies.length = done.length →
    (Item.listEntries [] (todo.map (bodyItem (.ofModule m)))).foldlM Tables.read t = .ok t' →
    ∃ fs : List Function, fs.map Callable.ofFunction = todo.map Callable.ofFunction ∧
      fs.map bodyOutline = todo.map bodyOutline ∧
      ∀ f ∈ fs, Filled (movedUp (f.blocks.map (·.instructions)))
  | [], _, _, _, _, _, _, _ => ⟨[], rfl, rfl, by simp⟩
  | f :: todo, done, t, t', ht, h, hbodies, hread => by
    rw [Tables.listEntries_bodyItems, List.map_cons, Tables.foldlM_read_block,
      ← Tables.listEntries_bodyItems] at hread
    obtain ⟨t₁, ht₁, hread⟩ := bind_eq_ok hread
    obtain ⟨blocks, hblocks, ht₁⟩ := bind_eq_ok ht₁
    obtain rfl := Except.ok.inj ht₁
    have hnext := Tables.defined_next ht h hbodies
    have houtline := outline_of_bodyOf ht (by simp [h]) hnext hblocks
    obtain ⟨fs, hcallables, houtlines, hfilled⟩ := functions_of_read_bodyItems todo (done ++ [f])
      (t := { t with bodies := t.bodies ++ [blocks] }) ⟨ht.types, ht.functions, ht.values⟩
      (by simp [h]) (by simp [hbodies]) hread
    refine ⟨{ f with blocks := blocks } :: fs, ?_, ?_, ?_⟩
    · rw [List.map_cons, List.map_cons, hcallables]
      rfl
    · rw [List.map_cons, List.map_cons, houtlines, ← houtline]
      rfl
    · exact List.forall_mem_cons.mpr ⟨Tables.filled_of_bodyOf hblocks, hfilled⟩

/-! ## Whole files -/

/-- If the bitcode of a module is read, it is so entry by entry. -/
theorem exists_of_decode_encode {m m' : Module} (h : decode (encode m) = .ok m') :
    ∃ t, (moduleEntries m).foldlM Tables.read (.empty (Layout.ofModule m).stringTable) = .ok t ∧
      t.toModule = .ok m' := by
  by_cases hfits : Item.ListFits (items m)
  · rw [decode_encode_of_fits hfits, moduleOf_forest] at h
    exact bind_eq_ok h
  · obtain ⟨e, he⟩ := decode_encode_of_misfits hfits
    rw [he] at h
    cases h

/-- Then its groups can be replaced by some without zeros in their strings. -/
theorem exists_nulFree_of_decode {m m' : Module} (h : decode (encode m) = .ok m') :
    ∃ n, Outline.ofModule n = Outline.ofModule m ∧
      ∀ g ∈ n.attributeGroups, ∀ a ∈ g.attributes, a.NulFree := by
  obtain ⟨t, ht, -⟩ := exists_of_decode_encode h
  rw [moduleEntries, Tables.foldlM_read_record] at ht
  obtain ⟨t₀, -, ht⟩ := bind_eq_ok ht
  rw [List.foldlM_append] at ht
  obtain ⟨t₁, ht₁, -⟩ := bind_eq_ok ht
  obtain ⟨groups, hgroups, hnulFree⟩ := groups_of_read ht₁
  refine ⟨{ m with attributeGroups := groups }, ?_, hnulFree⟩
  have hlist : Callable.outline groups = Callable.outline m.attributeGroups := by
    funext c
    rw [Callable.outline, attributeList_congr hgroups, Callable.outline]
  rw [Outline.ofModule, Outline.ofModule, hlist, hgroups]
  rfl

/-- And its functions by some whose ids have a group and whose instructions lie as they are
read. -/
theorem exists_restorable_of_nulFree {m m' : Module} (h : decode (encode m) = .ok m')
    (hnulFree : ∀ g ∈ m.attributeGroups, ∀ a ∈ g.attributes, a.NulFree) :
    ∃ n, Outline.ofModule n = Outline.ofModule m ∧ n.refilled.Restorable := by
  obtain ⟨t, ht, -⟩ := exists_of_decode_encode h
  rw [Tables.read_moduleEntries hnulFree] at ht
  obtain ⟨fs, hcallables, hbodies, hfilled⟩ :=
    functions_of_read_bodyItems m.functions [] (Tables.knows_declared m) rfl rfl ht
  refine ⟨resolved { m with functions := fs }, ?_, ?_⟩
  · have hall : Callable.all { m with functions := fs } = Callable.all m := by
      rw [Callable.all, Callable.all, hcallables]
    rw [outline_resolved, Outline.ofModule, Outline.ofModule, hall, hbodies]
  · constructor
    · refine List.forall_mem_map.mpr fun d _ => exists_of_resolvedId
    · refine List.forall_mem_map.mpr fun f hf => ?_
      obtain ⟨g, -, rfl⟩ := List.mem_map.mp hf
      exact exists_of_resolvedId
    · exact hnulFree
    · refine List.forall_mem_map.mpr fun f hf => ?_
      obtain ⟨g, hg, rfl⟩ := List.mem_map.mp hf
      rw [Function.parts_refilled]
      exact hfilled g hg

/-- A module with the outline of one whose bitcode is read can be restored from that bitcode. -/
theorem exists_restorable_of_decode {m m' : Module} (h : decode (encode m) = .ok m') :
    ∃ n, Outline.ofModule n = Outline.ofModule m ∧ n.refilled.Restorable := by
  obtain ⟨n₀, hn₀, hnulFree⟩ := exists_nulFree_of_decode h
  rw [← encode_eq_of_outline hn₀] at h
  obtain ⟨n, hn, hrestorable⟩ := exists_restorable_of_nulFree h hnulFree
  exact ⟨n, hn.trans hn₀, hrestorable⟩

/-- What is read has the bitcode it was read from. -/
theorem encode_of_decode_encode {m m' : Module} (h : decode (encode m) = .ok m') :
    encode m' = encode m ∧ decode (encode m') = .ok m' := by
  obtain ⟨n, houtline, hrestorable⟩ := exists_restorable_of_decode h
  have hencode : encode n.refilled = encode m :=
    (encode_refilled n).trans (encode_eq_of_outline houtline)
  obtain ⟨rfl, -⟩ := decode_encode_eq_ok hrestorable (hencode ▸ h)
  exact ⟨hencode, hencode ▸ h⟩

/-- An attribute with a zero in its value, a declaration with an id that no group has, and a call
behind a return. -/
def misshapen : Module where
  sourceName := "misshapen"
  declarations := [⟨"f", [], none, some 7⟩]
  functions := [⟨"main", none, some 0, [⟨"", [.ret, .call "f" []]⟩, ⟨"", []⟩]⟩]
  attributeGroups := [⟨0, [.keyValue "k" "v\u0000\u0003flag"]⟩]
  flags := []

/-- What its bitcode is read as. -/
def reshaped : Module where
  sourceName := "misshapen"
  declarations := [⟨"f", [], none, none⟩]
  functions := [⟨"main", none, some 0, [⟨"", [.ret]⟩, ⟨"", [.call "f" []]⟩]⟩]
  attributeGroups := [⟨0, [.keyValue "k" "v", .flag "flag"]⟩]
  flags := []

theorem encode_reshaped : decode (encode misshapen) = .ok reshaped ∧
    encode reshaped = encode misshapen ∧ decode (encode reshaped) = .ok reshaped := by
  have hread : decode (encode misshapen) = .ok reshaped := by decide +kernel
  exact ⟨hread, encode_of_decode_encode hread⟩

end CircuitQir.Bitcode
