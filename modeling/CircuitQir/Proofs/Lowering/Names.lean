import CircuitQir.Lowering.EntryPointName
import CircuitQir.Proofs.Assembly.Lines
import CircuitQir.Proofs.Bitcode.Declared
/-!
# The texts of a program

Both renderings ask something of the texts in a module: names consist of certain characters, other
texts contain no quotes and no line feeds, and attributes no zero byte. The texts in a program are
identifiers, numerals and fixed words. They are all names, which is more than any of that.
-/

namespace CircuitQir

open Ir

namespace Assembly

/-! ## Names -/

theorem IsName.quotable {s : String} (h : IsName s) : Quotable s :=
  ⟨notMem_of_all rfl h.2, h.feed⟩

/-- The characters of a name are single bytes, and not zero. -/
theorem IsName.zero_notMem_encode {s : String} (h : IsName s) : 0 ∉ Utf8.encode s := by
  have hbytes : Utf8.encode s = s.toList.flatMap String.utf8EncodeChar := by
    conv_lhs => rw [← String.ofList_toList (s := s)]
    exact List.toList_data_toByteArray
  intro hzero
  rw [hbytes] at hzero
  obtain ⟨c, hc, hzero⟩ := List.mem_flatMap.mp hzero
  obtain ⟨hlow, hhigh⟩ := ascii_of_isNameCharacter (h.2 c hc)
  have hsize : c.utf8Size = 1 := by
    have hle : c.val.toNat ≤ 127 := by omega
    rw [Char.utf8Size, if_pos (UInt32.le_iff_toNat_le.mpr hle)]
  rw [String.utf8EncodeChar_eq_singleton hsize, List.mem_singleton] at hzero
  have hbyte : 0 = c.val.toNat % 2 ^ 8 := by
    rw [← UInt32.toNat_toUInt8, ← hzero]
    rfl
  omega

theorem nulFree_of_isName {a : Attribute} (h : ∀ s ∈ a.strings, IsName s) : a.NulFree := by
  cases a with
  | flag key => exact (h key (by simp [Attribute.strings])).zero_notMem_encode
  | keyValue key value =>
    have hkey := h key (by simp [Attribute.strings])
    have hvalue := h value (by simp [Attribute.strings])
    exact ⟨hkey.zero_notMem_encode, hvalue.zero_notMem_encode⟩

end Assembly

open Assembly

/-! ## The texts there are -/

theorem isNameCharacter_of_isIdentifierCharacter {c : Char}
    (h : isIdentifierCharacter c = true) : isNameCharacter c = true := by
  rw [isNameCharacter, ← isIdentifierCharacter, h, Bool.true_or]

theorem isName_ofList {cs : List Char} (hne : cs ≠ [])
    (h : ∀ c ∈ cs, isIdentifierCharacter c = true) : IsName (String.ofList cs) := by
  refine ⟨by simpa [← String.toList_eq_nil_iff] using hne, fun c hc => ?_⟩
  rw [String.toList_ofList] at hc
  exact isNameCharacter_of_isIdentifierCharacter (h c hc)

/-- Whatever an identifier is made of, it is a name. -/
theorem isName_identifierOf (raw : String) : IsName (identifierOf raw) := by
  have hall : ∀ c ∈ raw.toList.map fun c => if isIdentifierCharacter c then c else '_',
      isIdentifierCharacter c = true := by
    intro c hc
    obtain ⟨d, -, rfl⟩ := List.mem_map.mp hc
    split
    · assumption
    · decide
  unfold identifierOf
  dsimp only
  split
  · decide
  · rename_i c cs heq
    rw [heq] at hall
    split
    · refine isName_ofList (List.cons_ne_nil _ _) (List.forall_mem_cons.mpr ⟨by decide, ?_⟩)
      rwa [heq]
    · rw [heq]
      exact isName_ofList (List.cons_ne_nil _ _) hall

theorem Numeral.isName_ofNat (n : Nat) : IsName (ofNat n) := by
  refine isName_ofList Nat.toDigits_ne_nil ?_
  intro c hc
  rw [isIdentifierCharacter, Char.isAlphanum, isDigit_of_mem_toDigits c hc]
  simp

theorem Profile.isName_tag (p : Profile) : IsName p.tag := by
  cases p <;> decide

end CircuitQir
