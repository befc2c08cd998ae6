import CircuitQir.Bitstream.Decoding
import CircuitQir.Bitstream.Item
import CircuitQir.Proofs.Bitstream.Packing
/-!
# What a tree of items says

`Item.listEntries` is the meaning of items: the entries that a reader should find in their block.
It depends on the abbreviations defined before an item, since a blob takes its code from the first
of them.

Two conditions decide whether the meaning comes back. `Item.ListValid` is about the shape of the
tree: ids of ordinary blocks, widths the format allows, a definition ahead of every blob, and
nesting the reader follows. `Item.ListFits` is about sizes: every number has 64 bits and every
body fewer than `2 ^ 32` words. A valid tree can always be packed (`valid_listFields`).
-/

namespace CircuitQir.Bitstream

/-- The layout `[code, blob]`, the only one that is ever defined for writing. -/
def blobLayout (code : Nat) : Abbreviation := ⟨[.literal code], .blob⟩

namespace Item

/-! ## Meaning -/

/-- The codes of the abbreviations that an item defines. -/
def defined : Item → List Nat
  | blobAbbreviation code => [code]
  | _ => []

mutual

/-- The entries that an item adds to its block, behind definitions with the given codes. -/
def entries (codes : List Nat) : Item → List Entry
  | record code ops => [.record ⟨code, ops, none⟩]
  | blobAbbreviation _ => []
  | blob bytes => [.record ⟨codes.headD 0, [], some bytes⟩]
  | block id _ items => [.block id (listEntries [] items)]

/-- The entries that several items add to their block. -/
def listEntries (codes : List Nat) : List Item → List Entry
  | [] => []
  | i :: is => entries codes i ++ listEntries (codes ++ i.defined) is

end

/-- The top-level block that an item is. -/
def block? : Item → Option Block
  | block id _ items => some ⟨id, listEntries [] items⟩
  | _ => none

/-- The top-level blocks that items are. -/
def forest (items : List Item) : List Block := items.filterMap block?

/-! ## Shape -/

mutual

/-- The item can stand inside `depth` blocks, the innermost with abbreviation ids of `width` bits
and definitions of the given codes. -/
def Valid (depth width : Nat) (codes : List Nat) : Item → Prop
  | record _ _ => True
  | blobAbbreviation _ => True
  | blob _ => 3 ≤ width ∧ codes ≠ []
  | block id inner items =>
    id ≠ announcingBlock ∧ depth ≤ maxDepth ∧ (2 ≤ inner ∧ inner ≤ 32) ∧
      ListValid (depth + 1) inner [] items

@[inherit_doc Valid]
def ListValid (depth width : Nat) (codes : List Nat) : List Item → Prop
  | [] => True
  | i :: is => Valid depth width codes i ∧ ListValid depth width (codes ++ i.defined) is

end

/-- The item is a record spelled out in full. -/
def IsRecord (i : Item) : Prop := ∃ code ops, i = record code ops

theorem IsRecord.defined_eq {i : Item} (h : i.IsRecord) : i.defined = [] := by
  obtain ⟨code, ops, rfl⟩ := h
  rfl

theorem IsRecord.valid {i : Item} (h : i.IsRecord) (depth width : Nat) (codes : List Nat) :
    Valid depth width codes i := by
  obtain ⟨code, ops, rfl⟩ := h
  trivial

/-- Items that define nothing are valid together if each of them is. -/
theorem listValid_of_forall {depth width : Nat} {codes : List Nat} {items : List Item}
    (h : ∀ i ∈ items, i.defined = [] ∧ Valid depth width codes i) :
    ListValid depth width codes items := by
  induction items with
  | nil => trivial
  | cons i is ih =>
    obtain ⟨hdefined, hvalid⟩ := h i (by simp)
    refine ⟨hvalid, ?_⟩
    rw [hdefined, List.append_nil]
    exact ih fun j hj => h j (by simp [hj])

theorem listValid_of_records {depth width : Nat} {codes : List Nat} {items : List Item}
    (h : ∀ i ∈ items, i.IsRecord) : ListValid depth width codes items :=
  listValid_of_forall fun i hi => ⟨(h i hi).defined_eq, (h i hi).valid _ _ _⟩

/-- Items that can stand outside of all blocks: valid blocks. -/
def Forest (items : List Item) : Prop :=
  (∀ i ∈ items, ∃ id width inner, i = block id width inner) ∧
    ListValid 0 topLevelWidth [] items

/-! ## Size -/

/-- The body of a block, from the first word behind its length on. -/
def body (width : Nat) (items : List Item) : List Field :=
  listFields width items ++ endBlock width

mutual

/-- Every number of the item has 64 bits, and every body fewer than `2 ^ 32` words. -/
def Fits : Item → Prop
  | record code ops => code < 2 ^ 64 ∧ ops.length < 2 ^ 64 ∧ ∀ n ∈ ops, n < 2 ^ 64
  | blobAbbreviation code => code < 2 ^ 64
  | blob bytes => bytes.length < 2 ^ 64
  | block id width items =>
    id < 2 ^ 64 ∧ Field.extent 0 (body width items) / 32 < 2 ^ 32 ∧ ListFits items

@[inherit_doc Fits]
def ListFits : List Item → Prop
  | [] => True
  | i :: is => Fits i ∧ ListFits is

end

/-- Items that define no abbreviation leave their entries to those behind them as they are. -/
theorem listEntries_append (codes : List Nat) {is js : List Item}
    (h : ∀ i ∈ is, i.defined = []) :
    listEntries codes (is ++ js) = listEntries codes is ++ listEntries codes js := by
  induction is with
  | nil => rfl
  | cons i is ih =>
    rw [List.cons_append, listEntries, listEntries, h i (by simp), List.append_nil,
      ih fun j hj => h j (by simp [hj]), List.append_assoc]

theorem listEntries_record (code : Nat) (ops : List Nat) (is : List Item) :
    listEntries [] (.record code ops :: is) =
      .record ⟨code, ops, none⟩ :: listEntries [] is := rfl

theorem listEntries_records {α : Type} (codes : List Nat) (code : Nat) (ops : α → List Nat)
    (xs : List α) :
    listEntries codes (xs.map fun x => record code (ops x)) =
      xs.map fun x => .record ⟨code, ops x, none⟩ := by
  induction xs with
  | nil => rfl
  | cons x xs ih => simp [listEntries, entries, defined, ih]

/-- The records among the entries of items. -/
def records (items : List Item) : List Record := (listEntries [] items).filterMap Entry.record?

theorem records_record (code : Nat) (ops : List Nat) (items : List Item) :
    records (.record code ops :: items) = ⟨code, ops, none⟩ :: records items := rfl

end Item

/-! ## A valid tree can be packed -/

/-- Each piece of a number fits its width. -/
theorem VbrWidth.valid_fields (w : VbrWidth) (hw : w.bits ≤ 32) (value : Nat) :
    ∀ f ∈ w.fields value, f.Valid := by
  have hbase : 2 ^ w.bits = 2 * w.base := by
    have := w.two_le
    rw [VbrWidth.base, ← Nat.pow_succ']
    congr 1
    omega
  induction value using Nat.strongRecOn with
  | ind value ih =>
    have htwo := w.two_le_base
    rw [VbrWidth.fields]
    split
    · rename_i hlt
      intro f hf
      obtain rfl := List.mem_singleton.mp hf
      exact ⟨hw, by omega⟩
    · rename_i hge
      intro f hf
      rcases List.mem_cons.mp hf with rfl | hf
      · have := Nat.mod_lt value (show 0 < w.base by omega)
        exact ⟨hw, by omega⟩
      · exact ih (value / w.base) (Nat.div_lt_self (by omega) htwo) f hf

namespace Item

/-- A number with a width that holds it. -/
theorem valid_number {value width : Nat} (hw : 2 ≤ width ∧ width ≤ 32) (hv : value < 4) :
    Field.Valid (.number value width) := by
  have : 2 ^ 2 ≤ 2 ^ width := Nat.pow_le_pow_right (by decide) hw.1
  exact ⟨hw.2, by omega⟩

theorem valid_endBlock {width : Nat} (hw : 2 ≤ width ∧ width ≤ 32) :
    ∀ f ∈ endBlock width, f.Valid := by
  intro f hf
  simp only [endBlock, List.mem_cons, List.not_mem_nil, or_false] at hf
  rcases hf with rfl | rfl
  · exact valid_number hw (by decide)
  · trivial

mutual

theorem valid_fields {depth width : Nat} {codes : List Nat} (hw : 2 ≤ width ∧ width ≤ 32) :
    ∀ i : Item, Valid depth width codes i → ∀ f ∈ fields width i, f.Valid
  | record code ops, _ => by
    have hsix := VbrWidth.six.valid_fields (by decide)
    intro f hf
    simp only [fields, List.mem_cons, List.mem_append, List.mem_flatMap] at hf
    rcases hf with rfl | (hf | hf) | ⟨n, -, hf⟩
    · exact valid_number hw (by decide)
    · exact hsix _ f hf
    · exact hsix _ f hf
    · exact hsix _ f hf
  | blobAbbreviation code, _ => by
    intro f hf
    simp only [fields, List.mem_cons, List.mem_append, List.not_mem_nil, or_false] at hf
    rcases hf with rfl | (hf | rfl | hf) | rfl | rfl
    · exact valid_number hw (by decide)
    · exact VbrWidth.five.valid_fields (by decide) _ f hf
    · exact ⟨by decide, by decide⟩
    · exact VbrWidth.eight.valid_fields (by decide) _ f hf
    · exact ⟨by decide, by decide⟩
    · exact ⟨by decide, by decide⟩
  | blob bytes, hv => by
    simp only [Valid] at hv
    intro f hf
    simp only [fields, List.mem_cons, List.mem_append, List.mem_map, List.not_mem_nil,
      or_false] at hf
    rcases hf with rfl | (hf | rfl | ⟨b, -, rfl⟩) | rfl
    · have : 2 ^ 3 ≤ 2 ^ width := Nat.pow_le_pow_right (by decide) hv.1
      exact ⟨hw.2, by omega⟩
    · exact VbrWidth.six.valid_fields (by decide) _ f hf
    · trivial
    · exact ⟨by decide, b.toNat_lt⟩
    · trivial
  | block id inner items, hv => by
    simp only [Valid] at hv
    obtain ⟨-, -, hinner, hitems⟩ := hv
    intro f hf
    simp only [fields, List.mem_cons, List.mem_append, List.not_mem_nil, or_false] at hf
    rcases hf with rfl | ((hf | hf) | rfl | rfl) | hf | hf
    · exact valid_number hw (by decide)
    · exact VbrWidth.eight.valid_fields (by decide) _ f hf
    · exact VbrWidth.four.valid_fields (by decide) _ f hf
    · trivial
    · refine ⟨by decide, ?_⟩
      unfold lengthWord
      omega
    · exact valid_listFields hinner items hitems f hf
    · exact valid_endBlock hinner f hf

/-- All fields of valid items can be packed. -/
theorem valid_listFields {depth width : Nat} {codes : List Nat} (hw : 2 ≤ width ∧ width ≤ 32) :
    ∀ items : List Item, ListValid depth width codes items →
      ∀ f ∈ listFields width items, f.Valid
  | [], _, _, hf => by simp [listFields] at hf
  | i :: is, hv, f, hf => by
    simp only [ListValid] at hv
    simp only [listFields, List.mem_append] at hf
    rcases hf with hf | hf
    · exact valid_fields hw i hv.1 f hf
    · exact valid_listFields hw is hv.2 f hf

end

end Item

end CircuitQir.Bitstream
