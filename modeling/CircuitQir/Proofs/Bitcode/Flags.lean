import CircuitQir.Bitcode.Metadata
import CircuitQir.Proofs.Bitcode.Constants
/-!
# Reading module flags back

The metadata of a module numbers the keys of its flags, their constants and a node for each flag,
in this order. Reading it goes through the three parts one after the other, and then through the
list of the nodes.
-/

namespace CircuitQir.Bitcode

open Ir Bitstream

theorem mapM_range'_ok {α : Type} {f : Nat → Checked α} {xs : List α} (start : Nat)
    (h : ∀ i (hi : i < xs.length), f (start + i) = .ok xs[i]) :
    (List.range' start xs.length).mapM f = .ok xs := by
  induction xs generalizing start with
  | nil => rfl
  | cons x xs ih =>
    have hx := h 0 (by simp)
    have hxs := ih (start + 1) fun i hi => by
      have := h (i + 1) (by simpa using hi)
      rwa [← Nat.add_assoc, Nat.add_right_comm] at this
    rw [List.length_cons, List.range'_succ, List.mapM_cons]
    rw [Nat.add_zero] at hx
    rw [hx, hxs]
    rfl

/-! ## The three parts -/

theorem readMetadata_keys (values : List Value) (flags : List ModuleFlag) (rest : List Item) :
    ∀ (keys : List String) (nodes : List Metadata),
      readMetadata values nodes flags
          (Item.records (keys.map (.text MetadataCode.string []) ++ rest)) =
        readMetadata values (nodes ++ keys.map .string) flags (Item.records rest)
  | [], nodes => by rw [List.map_nil, List.map_nil, List.nil_append, List.append_nil]
  | key :: keys, nodes => by
    rw [List.map_cons, List.cons_append, Item.text, Item.records_record, readMetadata]
    show (stringOf ((Utf8.encode key).map UInt8.toNat) >>= fun s =>
      readMetadata values (nodes ++ [.string s]) flags _) = _
    rw [stringOf_encode]
    refine (readMetadata_keys values flags rest keys (nodes ++ [.string key])).trans ?_
    rw [List.append_assoc]
    rfl

theorem readMetadata_values {l : Layout} {values : List Value} (flags : List ModuleFlag)
    (rest : List Item) :
    ∀ (constants : List Constant) (nodes : List Metadata),
      (∀ c ∈ constants, values[l.constantId c]? = some (.constant c)) →
      readMetadata values nodes flags
          (Item.records (constants.map (fun c =>
            .record MetadataCode.value [l.typeId c.type, l.constantId c]) ++ rest)) =
        readMetadata values (nodes ++ constants.map .value) flags (Item.records rest)
  | [], nodes, _ => by rw [List.map_nil, List.map_nil, List.nil_append, List.append_nil]
  | c :: constants, nodes, h => by
    rw [List.map_cons, List.cons_append, Item.records_record, readMetadata]
    simp only [h c (by simp)]
    refine (readMetadata_values flags rest constants (nodes ++ [.value c])
      fun d hd => h d (by simp [hd])).trans ?_
    rw [List.append_assoc]
    rfl

theorem readMetadata_nodes (values : List Value) (flags : List ModuleFlag) (rest : List Item)
    {α : Type} (refs : α → List Nat) :
    ∀ (xs : List α) (nodes : List Metadata),
      readMetadata values nodes flags
          (Item.records (xs.map (fun x => .record MetadataCode.node (refs x)) ++ rest)) =
        readMetadata values (nodes ++ xs.map fun x => .node (refs x)) flags (Item.records rest)
  | [], nodes => by rw [List.map_nil, List.map_nil, List.nil_append, List.append_nil]
  | x :: xs, nodes => by
    rw [List.map_cons, List.cons_append, Item.records_record, readMetadata]
    refine (readMetadata_nodes values flags rest refs xs (nodes ++ [.node (refs x)])).trans ?_
    rw [List.append_assoc]
    rfl

/-! ## Flags from nodes -/

theorem flagValueOf_ofFlagValue (v : FlagValue) : flagValueOf (.ofFlagValue v) = .ok v := by
  cases v with
  | i32 v =>
    have hl := v.le_toInt
    have hu := v.toInt_lt
    show (if -2 ^ 31 ≤ v.toInt ∧ v.toInt < 2 ^ 31 then .ok (FlagValue.i32 (Int32.ofInt v.toInt))
      else reject .flagRange) = _
    rw [if_pos (by omega), Int32.ofInt_toInt]
  | bool b => cases b <;> rfl

/-- The nodes of the flags of a module. -/
def flagNodes (flags : List ModuleFlag) (refs : ModuleFlag → List Nat) : List Metadata :=
  (flagKeys flags).map .string ++ (flagValues flags).map .value ++ flags.map fun f => .node (refs f)

/-- The references of the node of a flag. -/
def flagRefs (flags : List ModuleFlag) (f : ModuleFlag) : List Nat :=
  [(flagKeys flags).length + (flagValues flags).idxOf (.ofBehavior f.behavior) + 1,
    (flagKeys flags).idxOf f.key + 1,
    (flagKeys flags).length + (flagValues flags).idxOf (.ofFlagValue f.value) + 1]

theorem at?_key {flags : List ModuleFlag} {f : ModuleFlag} (hf : f ∈ flags)
    (refs : ModuleFlag → List Nat) :
    Metadata.at? (flagNodes flags refs) ((flagKeys flags).idxOf f.key + 1) =
      some (.string f.key) := by
  have hmem : f.key ∈ flagKeys flags :=
    List.mem_eraseDups.mpr (List.mem_map_of_mem hf)
  have hlt := List.idxOf_lt_length_of_mem hmem
  rw [Metadata.at?, flagNodes, List.append_assoc, List.getElem?_append_left (by simpa using hlt),
    List.getElem?_map, List.getElem?_idxOf hmem]
  rfl

theorem at?_value {flags : List ModuleFlag} {f : ModuleFlag} (hf : f ∈ flags) {c : Constant}
    (hc : c ∈ flagConstants f) (refs : ModuleFlag → List Nat) :
    Metadata.at? (flagNodes flags refs)
        ((flagKeys flags).length + (flagValues flags).idxOf c + 1) = some (.value c) := by
  have hmem : c ∈ flagValues flags :=
    List.mem_eraseDups.mpr (List.mem_flatMap.mpr ⟨f, hf, hc⟩)
  have hlt := List.idxOf_lt_length_of_mem hmem
  have hkeys : ((flagKeys flags).map Metadata.string).length = (flagKeys flags).length :=
    List.length_map ..
  rw [Metadata.at?, flagNodes, List.append_assoc, ← hkeys,
    List.getElem?_append_right (Nat.le_add_right _ _), Nat.add_sub_cancel_left,
    List.getElem?_append_left (by simpa using hlt), List.getElem?_map,
    List.getElem?_idxOf hmem]
  rfl

theorem flagOf_node {nodes : List Metadata} {id : Nat} {refs : List Nat} {f : ModuleFlag}
    (hnode : nodes[id]? = some (.node refs))
    (hrefs : refs.map (Metadata.at? nodes) = [some (.value (.ofBehavior f.behavior)),
      some (.string f.key), some (.value (.ofFlagValue f.value))]) :
    flagOf nodes id = .ok f := by
  have hrange : (0 : Int) ≤ f.behavior.toNat ∧ (f.behavior.toNat : Int) < 2 ^ 32 := by
    have := f.behavior.toNat_lt
    omega
  unfold flagOf
  rw [hnode]
  dsimp only
  rw [hrefs]
  split
  · rename_i heq
    simp only [List.cons.injEq, Option.some.injEq, Metadata.value.injEq, Metadata.string.injEq,
      Constant.ofBehavior, Constant.int.injEq, true_and, and_true] at heq
    obtain ⟨rfl, rfl, rfl⟩ := heq
    rw [if_pos hrange, flagValueOf_ofFlagValue, Int.toNat_natCast, UInt32.ofNat_toNat]
    rfl
  · rename_i hother
    exact absurd rfl (hother f.behavior.toNat f.key (.ofFlagValue f.value))

/-- The node of a flag describes the flag. -/
theorem flagOf_flagNodes (flags : List ModuleFlag) (i : Nat) (hi : i < flags.length) :
    flagOf (flagNodes flags (flagRefs flags))
        ((flagKeys flags).length + (flagValues flags).length + i) = .ok flags[i] := by
  have hf : flags[i] ∈ flags := List.getElem_mem hi
  have hnode : (flagNodes flags (flagRefs flags))[
      (flagKeys flags).length + (flagValues flags).length + i]? =
        some (.node (flagRefs flags flags[i])) := by
    have hlength : (flagKeys flags).length + (flagValues flags).length =
        ((flagKeys flags).map Metadata.string ++
          (flagValues flags).map Metadata.value).length := by
      rw [List.length_append, List.length_map, List.length_map]
    rw [flagNodes, hlength, List.getElem?_append_right (Nat.le_add_right _ _),
      Nat.add_sub_cancel_left, List.getElem?_map, List.getElem?_eq_getElem hi]
    rfl
  have hrefs : (flagRefs flags flags[i]).map (Metadata.at? (flagNodes flags (flagRefs flags))) =
      [some (.value (.ofBehavior flags[i].behavior)), some (.string flags[i].key),
        some (.value (.ofFlagValue flags[i].value))] := by
    show [Metadata.at? _ _, Metadata.at? _ _, Metadata.at? _ _] = _
    rw [at?_value hf (by simp [flagConstants]), at?_key hf,
      at?_value hf (by simp [flagConstants])]
  exact flagOf_node hnode hrefs

/-! ## The metadata of a module -/

variable {m : Module}

theorem flagValues_subset {c : Constant} (h : c ∈ flagValues m.flags) :
    c ∈ (Layout.ofModule m).constants := by
  obtain ⟨f, hf, hc⟩ := List.mem_flatMap.mp (List.mem_eraseDups.mp h)
  exact Layout.flagConstants_mem m hf hc

/-- Reading the flags of a module. -/
theorem Tables.read_flagItems {t : Tables} (front : List Value)
    (hfront : front.length = (Layout.ofModule m).callables.length)
    (hvalues : t.values = front ++ (Layout.ofModule m).constants.map .constant) :
    (Item.listEntries [] (flagItems (.ofModule m) m.flags)).foldlM read t =
      .ok { t with flags := t.flags ++ m.flags } := by
  unfold flagItems
  split
  · rename_i hempty
    have hnil : m.flags = [] := by simpa using hempty
    simp [hnil, Item.listEntries, pure, Except.pure]
  · have hconstants : ∀ c ∈ flagValues m.flags,
        t.values[(Layout.ofModule m).constantId c]? = some (.constant c) := by
      intro c hc
      have h := values_constantId hfront (List.append_nil _).symm (flagValues_subset hc) []
      rwa [List.append_nil, ← hvalues] at h
    have hlist : readMetadata t.values (flagNodes m.flags (flagRefs m.flags)) t.flags
        (Item.records [.text MetadataCode.name [] flagListName,
          .record MetadataCode.namedNode ((List.range m.flags.length).map
            ((flagKeys m.flags).length + (flagValues m.flags).length + ·))]) =
        .ok (t.flags ++ m.flags) := by
      have hflags := mapM_range'_ok _ (flagOf_flagNodes m.flags)
      rw [List.range'_eq_map_range] at hflags
      rw [Item.text, Item.records_record, Item.records_record, readMetadata]
      show (stringOf ((Utf8.encode flagListName).map UInt8.toNat) >>= fun name => _) = _
      rw [stringOf_encode]
      show (List.mapM _ _ >>= fun more => readMetadata _ _ (t.flags ++ more) []) = _
      rw [hflags]
      rfl
    show ((do
      let flags ← readMetadata t.values [] t.flags (Item.records _)
      return { t with flags }) >>= pure) = _
    dsimp only
    rw [List.append_assoc, List.append_assoc, readMetadata_keys,
      readMetadata_values _ _ _ _ hconstants, readMetadata_nodes]
    show ((readMetadata t.values (flagNodes m.flags (flagRefs m.flags)) t.flags _ >>= fun flags =>
      pure { t with flags }) >>= pure) = _
    rw [hlist]
    rfl

end CircuitQir.Bitcode
