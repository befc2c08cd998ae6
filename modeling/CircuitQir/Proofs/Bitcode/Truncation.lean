import CircuitQir.Proofs.Bitcode.RoundTrip
import CircuitQir.Proofs.Bitstream.Truncation
/-!
# Bitcode that breaks off

No part that a file starts with is read as a module (`decode_truncated_error`), as long as there is
a function with a name. Where a block breaks off the container is refused. Where whole blocks are
missing, the module block is among them, or else the table of names is, and then the names of
functions cannot be found: all names are empty in a table without bytes.
-/

namespace CircuitQir.Bitcode

open Ir Bitstream

theorem length_encode_pos {s : String} (h : s ≠ "") : 0 < (Utf8.encode s).length := by
  refine List.length_pos_iff.mpr fun hnil => h ?_
  have hempty : Utf8.encode "" = [] := by decide
  have hdecode := Utf8.decode?_encode s
  rw [hnil, ← hempty, Utf8.decode?_encode] at hdecode
  exact (Option.some.inj hdecode).symm

namespace Tables

variable {t t' : Tables}

theorem strings_of_readRecord {r : Record} (h : t.readRecord r = .ok t') :
    t'.strings = t.strings := by
  unfold readRecord at h
  split at h
  · dsimp only at h
    split at h
    · rw [Except.ok.inj h]
    · cases h
  · obtain ⟨name, -, h⟩ := bind_eq_ok h
    rw [← Except.ok.inj h]
  · split at h
    · obtain ⟨name, -, h⟩ := bind_eq_ok h
      obtain ⟨type, -, h⟩ := bind_eq_ok h
      split at h
      · obtain ⟨id, -, h⟩ := bind_eq_ok h
        rw [← Except.ok.inj h]
      · cases h
    · cases h
  · rw [Except.ok.inj h]

theorem strings_of_readBlock {b : Bitstream.Block} (h : t.readBlock b = .ok t') :
    t'.strings = t.strings := by
  unfold readBlock at h
  split at h
  · obtain ⟨groups, -, h⟩ := bind_eq_ok h
    rw [← Except.ok.inj h]
  · rw [← Except.ok.inj h]
  · obtain ⟨types, -, h⟩ := bind_eq_ok h
    rw [← Except.ok.inj h]
  · obtain ⟨values, -, h⟩ := bind_eq_ok h
    rw [← Except.ok.inj h]
  · obtain ⟨flags, -, h⟩ := bind_eq_ok h
    rw [← Except.ok.inj h]
  · obtain ⟨bs, -, h⟩ := bind_eq_ok h
    rw [← Except.ok.inj h]
  · rw [Except.ok.inj h]

/-- No entry of the module block adds to the table of names. -/
theorem strings_of_read {e : Entry} (h : t.read e = .ok t') :
    t'.strings = t.strings := by
  cases e with
  | record r => exact strings_of_readRecord h
  | block id entries => exact strings_of_readBlock h

/-- A name with bytes is not found in an empty table. -/
theorem read_function_error (ht : t.strings = []) {offset size : Nat} (hsize : 0 < size)
    (type linkage isDeclaration convention list : Nat) (others : List Nat) :
    ∃ e, t.read (.record ⟨ModuleCode.function,
      offset :: size :: type :: linkage :: isDeclaration :: convention :: list :: others, none⟩) =
        .error e := by
  have hname : t.name offset size = .error (.invalid .nameOutsideTable) := by
    rw [name, ht, if_neg (by simp; omega)]
    rfl
  exact ⟨_, bind_of_error hname _⟩

end Tables

/-- Every callable has a record with the length of its name. -/
theorem mem_functionEntries (l : Layout) (groups : List AttributeGroup) {c : Callable} :
    ∀ {cs : List Callable} (offset : Nat), c ∈ cs →
      ∃ place type list, Entry.record ⟨ModuleCode.function,
        [place, (Utf8.encode c.name).length, type, 0, c.isDeclaration.toNat, 0, list] ++
          List.replicate 12 0, none⟩ ∈ Item.listEntries [] (functionItems l groups offset cs)
  | d :: cs, offset, hc => by
    rw [functionItems, Item.listEntries_record]
    rcases List.mem_cons.mp hc with rfl | hc
    · exact ⟨_, _, _, List.mem_cons_self⟩
    · obtain ⟨place, type, list, hmem⟩ := mem_functionEntries l groups _ hc
      exact ⟨place, type, list, List.mem_cons_of_mem _ hmem⟩

variable {m : Module}

/-- Without a table of names the entries of the module block cannot be read. -/
theorem moduleEntries_error {c : Callable} (hc : c ∈ Callable.all m) (hname : c.name ≠ "") :
    ∃ e, (moduleEntries m).foldlM Tables.read (.empty []) = .error e := by
  rw [← Layout.callables_ofModule] at hc
  obtain ⟨place, type, list, hmem⟩ := mem_functionEntries (.ofModule m) m.attributeGroups 0 hc
  have hstep : ∀ t e t', t.strings = [] → Tables.read t e = .ok t' → t'.strings = [] :=
    fun _ _ _ ht h => (Tables.strings_of_read h).trans ht
  have hentry (t : Tables) (ht : t.strings = []) : ∃ e, t.read (.record ⟨ModuleCode.function,
      [place, (Utf8.encode c.name).length, type, 0, c.isDeclaration.toNat, 0, list] ++
        List.replicate 12 0, none⟩) = .error e :=
    Tables.read_function_error ht (length_encode_pos hname) type 0 c.isDeclaration.toNat 0 list
      (List.replicate 12 0)
  refine foldlM_error hstep hentry rfl ?_
  unfold moduleEntries
  simp only [List.mem_cons, List.mem_append]
  exact .inr (.inr (.inr (.inr (.inl hmem))))

/-- The three blocks of short bitcode say how long they are. -/
theorem announced_items (hlength : (encode m).length < 2 ^ 34) : Item.Announced (items m) := by
  have hbits := length_bits_le_encode magic (forest_items_valid m)
  rw [encode] at hlength
  have hbounded : Item.ListBounded (items m) :=
    Item.listBounded_of_bits (items m) topLevelWidth (Field.extent 0 (magicFields magic)) (by omega)
  intro id width inner hmem
  refine ⟨?_, (Item.listBounded_iff.mp hbounded _ hmem).1⟩
  simp only [items, List.mem_cons, List.not_mem_nil, or_false] at hmem
  rcases hmem with h | h | h <;> obtain ⟨rfl, -, -⟩ := Item.block.inj h <;> decide

/-- The blocks that come before the table of names do not make up a module. -/
theorem moduleOf_take_error {c : Callable} (hc : c ∈ Callable.all m) (hname : c.name ≠ "")
    {k : Nat} (hk : k < (items m).length) :
    ∃ e, moduleOf ((Item.forest (items m)).take k) = .error e := by
  rw [forest_items]
  have hlength : (items m).length = 3 := rfl
  obtain rfl | rfl | rfl : k = 0 ∨ k = 1 ∨ k = 2 := by omega
  · exact ⟨_, rfl⟩
  · exact ⟨_, rfl⟩
  · obtain ⟨e, he⟩ := moduleEntries_error hc hname
    exact ⟨e, bind_of_error he _⟩

/-- Bitcode of which something is missing at the end is not read. -/
theorem decode_truncated_error
    (hname : (∃ d ∈ m.declarations, d.name ≠ "") ∨ ∃ f ∈ m.functions, f.name ≠ "")
    (hlength : (encode m).length < 2 ^ 34) {bytes : List UInt8} (hcut : bytes <+: encode m)
    (hne : bytes ≠ encode m) : ∃ e, decode bytes = .error e := by
  obtain ⟨c, hc, hname⟩ : ∃ c ∈ Callable.all m, c.name ≠ "" := by
    rcases hname with ⟨d, hd, hname⟩ | ⟨f, hf, hname⟩
    · exact ⟨.ofDeclaration d, List.mem_append_left _ (List.mem_map_of_mem hd), hname⟩
    · exact ⟨.ofFunction f, List.mem_append_right _ (List.mem_map_of_mem hf), hname⟩
  unfold decode
  rcases decode_truncated rfl (forest_items_valid m) (announced_items hlength) hcut hne with
    ⟨e, he⟩ | ⟨k, hk, hsome⟩
  · exact ⟨.stream e, by rw [he]⟩
  · rw [hsome]
    exact moduleOf_take_error hc hname hk

/-- A module that does nothing but declare a function. -/
def loneDeclaration : Module := ⟨"", [⟨"f", [], none, none⟩], [], [], []⟩

/-- Its bitcode needs the last byte too. -/
theorem decode_dropLast_loneDeclaration :
    (∃ d ∈ loneDeclaration.declarations, d.name ≠ "") ∧
      (encode loneDeclaration).length < 2 ^ 34 ∧
      ∃ e, decode (encode loneDeclaration).dropLast = .error e := by
  have hname : ∃ d ∈ loneDeclaration.declarations, d.name ≠ "" := by decide
  have hlength : (encode loneDeclaration).length < 2 ^ 34 :=
    length_encode_lt_of_extent (by decide +kernel)
  have hne : (encode loneDeclaration).dropLast ≠ encode loneDeclaration := by
    intro h
    obtain ⟨back, hback, -⟩ : ∃ back, encode loneDeclaration = magic ++ back ∧ _ :=
      encode_eq_append rfl (forest_items_valid loneDeclaration)
    have hlast := congrArg List.length h
    have hpositive := congrArg List.length hback
    rw [List.length_dropLast] at hlast
    rw [List.length_append] at hpositive
    change (encode loneDeclaration).length = 4 + back.length at hpositive
    omega
  exact ⟨hname, hlength, decode_truncated_error (.inl hname) hlength
    (List.dropLast_prefix _) hne⟩

end CircuitQir.Bitcode
