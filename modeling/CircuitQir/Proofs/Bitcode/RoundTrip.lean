import CircuitQir.Proofs.Bitcode.Sizes
import CircuitQir.Proofs.Bitstream.RoundTrip
/-!
# Bitcode gives back its module

What the bitcode of a module is read as: the module itself if every call fits, and nothing at all
otherwise. No bitcode of a module is read as another module (`eq_of_decode_encode`), however long
it is; short bitcode of a module whose calls fit is always read.
-/

namespace CircuitQir.Bitcode

open Ir Bitstream

variable {m : Module}

theorem decode_encode_of_fits (hfits : Item.ListFits (items m)) :
    decode (encode m) = moduleOf (Item.forest (items m)) := by
  rw [decode, encode, Bitstream.decode_encode rfl (forest_items_valid m) hfits]

theorem decode_encode_of_misfits (hfits : ¬ Item.ListFits (items m)) :
    ∃ e, decode (encode m) = .error e := by
  have herror : ∃ e, Bitstream.decode magic (Bitstream.encode magic (items m)) = .error e :=
    Bitstream.decode_encode_error rfl (forest_items_valid m) hfits
  obtain ⟨e, he⟩ := herror
  exact ⟨.stream e, by rw [decode, encode, he]⟩

/-- Bitcode with a body that does not fit is not read. -/
theorem decode_encode_error (h : m.Restorable) (hfit : ¬ (m.BlocksFit ∧ m.CallsFit)) :
    ∃ e, decode (encode m) = .error e := by
  by_cases hfits : Item.ListFits (items m)
  · rw [decode_encode_of_fits hfits]
    exact moduleOf_forest_items_error h hfit
  · exact decode_encode_of_misfits hfits

/-- What is read is the module, and its bodies fit. -/
theorem decode_encode_eq_ok (h : m.Restorable) {m' : Module} (hread : decode (encode m) = .ok m') :
    m' = m ∧ m.BlocksFit ∧ m.CallsFit := by
  by_cases hfit : m.BlocksFit ∧ m.CallsFit
  · by_cases hfits : Item.ListFits (items m)
    · rw [decode_encode_of_fits hfits, moduleOf_forest_items h hfit] at hread
      exact ⟨(Except.ok.inj hread).symm, hfit⟩
    · obtain ⟨e, he⟩ := decode_encode_of_misfits hfits
      rw [he] at hread
      cases hread
  · obtain ⟨e, he⟩ := decode_encode_error h hfit
    rw [he] at hread
    cases hread

/-- Bitcode is never read as another module. -/
theorem eq_of_decode_encode (h : m.Writable) {m' : Module} (hread : decode (encode m) = .ok m') :
    m' = m :=
  (decode_encode_eq_ok h.restorable hread).1

/-- Short bitcode whose bodies fit gives back the module. -/
theorem decode_encode_of_fit (h : m.Restorable) (hlength : (encode m).length < 2 ^ 34)
    (hfit : m.BlocksFit ∧ m.CallsFit) : decode (encode m) = .ok m := by
  rw [decode_encode_of_fits (listFits_items hfit.1 hlength)]
  exact moduleOf_forest_items h hfit

/-- Short bitcode whose calls fit gives back the module. -/
theorem decode_encode_of_callsFit (h : m.Writable) (hlength : (encode m).length < 2 ^ 34)
    (hfit : m.CallsFit) : decode (encode m) = .ok m :=
  decode_encode_of_fit h.restorable hlength ⟨h.blocksFit, hfit⟩

/-- Short bitcode of a module is read as the module if every call names a function of the module
and passes the number of arguments of the first function of that name, and otherwise it is not
read as anything. -/
theorem decode_encode_iff (h : m.Writable) (hlength : (encode m).length < 2 ^ 34) :
    (decode (encode m) = .ok m ↔ m.CallsFit) ∧
      (¬ m.CallsFit → ∃ e, decode (encode m) = .error e) := by
  refine ⟨⟨fun hread => ?_, decode_encode_of_callsFit h hlength⟩, fun hfit => ?_⟩
  · exact (decode_encode_eq_ok h.restorable hread).2.2
  · exact decode_encode_error h.restorable fun hboth => hfit hboth.2

/-- Whether bitcode is short can be told from its fields alone. -/
theorem length_encode_lt_of_extent
    (h : Field.extent 0 (magicFields magic ++ Item.listFields topLevelWidth (items m)) < 2 ^ 36) :
    (encode m).length < 2 ^ 34 := by
  have hbytes := length_encode_lt magic (forest_items_valid m)
  unfold encode
  omega

/-- A module with two functions of one name, two blocks and the least integers and largest
pointers there are. -/
def extremes : Module where
  sourceName := "extremes"
  declarations := [⟨"f", [.i64, .ptr], some .i1, some 0⟩, ⟨"f", [], none, none⟩]
  functions := [⟨"main", some .i64, some 0,
    [⟨"first", [.call "f" [.int Int64.minValue, .pointer 0xffffffffffffffff], .ret]⟩, ⟨"", []⟩]⟩]
  attributeGroups := [⟨0, [.flag "entry_point", .keyValue "required_num_qubits" "1"]⟩]
  flags := [⟨0xffffffff, "f", .i32 Int32.minValue⟩, ⟨1, "f", .bool true⟩]

theorem decode_encode_extremes : decode (encode extremes) = .ok extremes :=
  (decode_encode_iff
    { declarations_resolved := by simp [extremes]
      functions_resolved := by simp [extremes]
      nulFree := by decide +kernel
      shaped := by
        intro f hf
        obtain rfl := List.mem_singleton.mp hf
        exact ⟨by decide, by decide⟩ }
    (length_encode_lt_of_extent (by decide +kernel))).1.mpr (by decide)

end CircuitQir.Bitcode
