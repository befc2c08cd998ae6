import CircuitQir.Proofs.Bitcode.Declared
/-!
# Reading constants back

The constants of a module are read in the order of their numbers. While they are, the values of
the tables are those of the functions and of the constants read so far, so the number of a
constant leads to it as soon as it has been read (`values_constantId`). Pointers rely on that:
each comes behind the integer it is cast from.
-/

namespace CircuitQir.Bitcode

open Ir Bitstream

theorem ofInt_toInt_toInt64 (p : UInt64) : UInt64.ofInt p.toInt64.toInt = p := by
  have hbits := congrArg BitVec.toNat (BitVec.ofInt_int64ToInt p.toInt64)
  rw [BitVec.toNat_ofInt] at hbits
  have hrange := p.toNat_lt
  rw [← UInt64.toNat_inj, UInt64.ofInt, UInt64.toNat_ofNat']
  change _ = p.toNat at hbits
  omega

variable {m : Module}

/-- The number of a constant leads back to it once it has been read. -/
theorem values_constantId {front : List Value} {done todo : List Constant} {c : Constant}
    (hfront : front.length = (Layout.ofModule m).callables.length)
    (hconstants : (Layout.ofModule m).constants = done ++ todo) (hc : c ∈ done)
    (rest : List Value) :
    (front ++ done.map .constant ++ rest)[(Layout.ofModule m).constantId c]? =
      some (.constant c) := by
  have hlt := List.idxOf_lt_length_of_mem hc
  have hid : (Layout.ofModule m).constantId c = front.length + done.idxOf c := by
    rw [Layout.constantId, hconstants, hfront, List.idxOf_append_of_mem hc]
  rw [hid, List.append_assoc, List.getElem?_append_right (Nat.le_add_right _ _),
    Nat.add_sub_cancel_left, List.getElem?_append_left (by simpa using hlt), List.getElem?_map,
    List.getElem?_idxOf hc]
  rfl

/-- The record of a constant is read as the constant behind an announcement of its type. -/
theorem constantOf_constantItem {front : List Value} {done todo : List Constant} {c : Constant}
    (hfront : front.length = (Layout.ofModule m).callables.length)
    (hconstants : (Layout.ofModule m).constants = done ++ c :: todo) :
    ∃ r : Record, constantItem (.ofModule m) c = .record r.code r.ops ∧ r.blob = none ∧
      r.code ≠ ConstantCode.setType ∧
      constantOf (front ++ done.map .constant) (some (.ofStored (.ofModule m) c.type)) r =
        .ok c := by
  have hrange : c.InRange :=
    Layout.named_inRange m ((Layout.mem_constants m).mp (by simp [hconstants]))
  cases c with
  | int width v =>
    refine ⟨⟨ConstantCode.integer, [encodeSigned v], none⟩, rfl, rfl,
      (by decide : ConstantCode.integer ≠ ConstantCode.setType), ?_⟩
    show Except.ok (Constant.int width (decodeSigned (encodeSigned v))) = _
    rw [decodeSigned_encodeSigned hrange.2.1]
  | double d =>
    refine ⟨⟨ConstantCode.float, [d.bits.toNat], none⟩, rfl, rfl,
      (by decide : ConstantCode.float ≠ ConstantCode.setType), ?_⟩
    show Except.ok (Constant.double ⟨UInt64.ofNat d.bits.toNat⟩) = _
    rw [UInt64.ofNat_toNat]
  | null => exact ⟨⟨ConstantCode.null, [], none⟩, rfl, rfl, by decide, rfl⟩
  | pointer p =>
    have haddress := values_constantId hfront hconstants
      (Layout.ofAddress_mem_of_split m hconstants) []
    rw [List.append_nil] at haddress
    refine ⟨⟨ConstantCode.cast, _, none⟩, rfl, rfl,
      (by decide : ConstantCode.cast ≠ ConstantCode.setType), ?_⟩
    simp only [constantOf, Constant.type, TypeEntry.ofStored, haddress]
    show Except.ok (Constant.pointer (UInt64.ofInt p.toInt64.toInt)) = _
    rw [ofInt_toInt_toInt64]

theorem type_mem_of_mem_constants {c : Constant} (h : c ∈ (Layout.ofModule m).constants) :
    c.type ∈ (Layout.ofModule m).types := by
  have hrange := Layout.named_inRange m ((Layout.mem_constants m).mp h)
  refine Layout.basic_mem m ?_
  exact List.mem_of_mem_tail hrange.type_mem

theorem readConstants_constantItems {t : Tables} (htypes : t.HasTypes (.ofModule m))
    {front : List Value} (hfront : front.length = (Layout.ofModule m).callables.length) :
    ∀ (done todo : List Constant) (current : Option StoredType),
      (Layout.ofModule m).constants = done ++ todo →
      readConstants t (front ++ done.map Value.constant) (current.map (.ofStored (.ofModule m)))
          (Item.records (constantItems (.ofModule m) current todo)) =
        .ok (front ++ (Layout.ofModule m).constants.map .constant)
  | done, [], current, h => by
    rw [List.append_nil] at h
    rw [h]
    rfl
  | done, c :: todo, current, h => by
    obtain ⟨⟨code, ops, blob⟩, hitem, rfl, hcode, hc⟩ := constantOf_constantItem hfront h
    have hnext := readConstants_constantItems htypes hfront (done ++ [c]) todo
      (some c.type) (by simpa using h)
    have hconstant : readConstants t (front ++ done.map Value.constant)
        (some (.ofStored (.ofModule m) c.type))
        (⟨code, ops, none⟩ :: Item.records (constantItems (.ofModule m) (some c.type) todo)) =
        .ok (front ++ (Layout.ofModule m).constants.map .constant) := by
      rw [readConstants, if_neg hcode, hc]
      refine Eq.trans ?_ hnext
      simp
      rfl
    rw [constantItems]
    split
    · rename_i hcurrent
      rw [hcurrent, List.nil_append, hitem, Item.records_record]
      exact hconstant
    · rw [List.singleton_append, Item.records_record, hitem, Item.records_record, readConstants,
        if_pos rfl]
      show (do
        let type ← t.typeEntry ((Layout.ofModule m).typeId c.type)
        readConstants t (front ++ done.map Value.constant) (some type) _) = _
      rw [Tables.typeEntry_typeId htypes (type_mem_of_mem_constants (by simp [h]))]
      exact hconstant

/-- Reading the constants of a module. -/
theorem Tables.read_constantsItem {t : Tables} (htypes : t.HasTypes (.ofModule m))
    (hvalues : t.values.length = (Layout.ofModule m).callables.length) :
    (Item.listEntries [] (constantsItem (.ofModule m))).foldlM read t =
      .ok { t with values := t.values ++ (Layout.ofModule m).constants.map .constant } := by
  unfold constantsItem
  split
  · rename_i hempty
    have hnil : (Layout.ofModule m).constants = [] := by simpa using hempty
    simp [hnil, Item.listEntries, pure, Except.pure]
  · have h := readConstants_constantItems htypes hvalues []
      (Layout.ofModule m).constants none rfl
    rw [List.map_nil, List.append_nil] at h
    show ((do
      let values ← readConstants t t.values none
        (Item.records (constantItems (.ofModule m) none (Layout.ofModule m).constants))
      return { t with values }) >>= pure) = _
    rw [Option.map_none] at h
    rw [h]
    rfl

end CircuitQir.Bitcode
