import CircuitQir.Proofs.Lowering.Names
/-!
# Identifiers

The name of an entry point stands without quotes in text, in bitcode and in the names of files, so
it has to be an identifier whatever the circuit and the options call it (`IsIdentifier`). An
identifier is made by putting an underscore in place of every character that has no place in one,
and another one ahead of a digit at the start. A name that is an identifier stays as it is, so
making an identifier of an identifier changes nothing (`identifierOf_eq_self_iff`).
-/

namespace CircuitQir

/-! ## Characters -/

/-- ASCII letters, digits, the underscore and the dot. -/
def MayStand (c : Char) : Prop :=
  ('a' ≤ c ∧ c ≤ 'z') ∨ ('A' ≤ c ∧ c ≤ 'Z') ∨ ('0' ≤ c ∧ c ≤ '9') ∨ c = '_' ∨ c = '.'

/-- The text starts with an ASCII digit. -/
def LeadingDigit (s : String) : Prop := ∃ c ∈ s.toList.head?, '0' ≤ c ∧ c ≤ '9'

theorem isDigit_iff {c : Char} : c.isDigit = true ↔ '0' ≤ c ∧ c ≤ '9' := by
  simp [Char.isDigit, Char.le_def]

theorem isLower_iff {c : Char} : c.isLower = true ↔ 'a' ≤ c ∧ c ≤ 'z' := by
  have hlower : c.isLower = (decide ('a' ≤ c) && decide (c ≤ 'z')) := rfl
  rw [hlower, Bool.and_eq_true, decide_eq_true_eq, decide_eq_true_eq]

theorem isUpper_iff {c : Char} : c.isUpper = true ↔ 'A' ≤ c ∧ c ≤ 'Z' := by
  have hupper : c.isUpper = decide ('A' ≤ c ∧ c ≤ 'Z') := rfl
  rw [hupper, decide_eq_true_eq]

theorem isIdentifierCharacter_iff {c : Char} : isIdentifierCharacter c = true ↔ MayStand c := by
  have hsplit : isIdentifierCharacter c =
      (c.isUpper || c.isLower || c.isDigit || c == '_' || c == '.') := rfl
  rw [hsplit]
  simp only [Bool.or_eq_true, beq_iff_eq, isUpper_iff, isLower_iff, isDigit_iff, MayStand]
  tauto

instance : DecidablePred MayStand := fun _ => decidable_of_iff _ isIdentifierCharacter_iff

instance : DecidablePred LeadingDigit := fun s =>
  decidable_of_iff (s.toList.head?.any Char.isDigit = true) <| by
    rw [LeadingDigit]
    cases s.toList.head? <;> simp [isDigit_iff]

/-- What a character becomes in an identifier. -/
def kept (c : Char) : Char := if isIdentifierCharacter c then c else '_'

theorem mayStand_kept (c : Char) : MayStand (kept c) := by
  rw [← isIdentifierCharacter_iff, kept]
  split
  · assumption
  · rfl

theorem kept_eq_self {c : Char} (h : MayStand c) : kept c = c :=
  if_pos (isIdentifierCharacter_iff.mpr h)

/-- Digits stay, and nothing else becomes one. -/
theorem isDigit_kept (c : Char) : (kept c).isDigit = c.isDigit := by
  unfold kept
  split
  · rfl
  · rename_i hc
    cases hdigit : c.isDigit with
    | false => rfl
    | true =>
      rw [isIdentifierCharacter_iff] at hc
      exact absurd (.inr (.inr (.inl (isDigit_iff.mp hdigit)))) hc

/-! ## Names -/

/-- An identifier has at least one character and does not start with a digit. -/
structure IsIdentifier (s : String) : Prop where
  ne_empty : s ≠ ""
  characters : ∀ c ∈ s.toList, MayStand c
  first : ¬ LeadingDigit s

theorem leadingDigit_iff {s : String} {c : Char} {cs : List Char} (h : s.toList = c :: cs) :
    LeadingDigit s ↔ c.isDigit = true := by
  rw [LeadingDigit, h, isDigit_iff]
  simp

theorem identifierOf_empty : identifierOf "" = "main" := rfl

/-- The characters of an identifier are those of the name it is made of. -/
theorem toList_identifierOf {raw : String} (h : raw ≠ "") : (identifierOf raw).toList =
    (if LeadingDigit raw then ['_'] else []) ++ raw.toList.map kept := by
  obtain ⟨c, cs, hraw⟩ := List.exists_cons_of_ne_nil (mt String.toList_eq_nil_iff.mp h)
  have hmade : identifierOf raw = String.ofList
      (if (kept c).isDigit then '_' :: raw.toList.map kept else raw.toList.map kept) := by
    unfold identifierOf
    dsimp only
    rw [hraw]
    rfl
  rw [hmade, String.toList_ofList, isDigit_kept]
  by_cases hdigit : c.isDigit = true
  · rw [if_pos hdigit, if_pos ((leadingDigit_iff hraw).mpr hdigit)]
    rfl
  · rw [if_neg hdigit, if_neg (mt (leadingDigit_iff hraw).mp hdigit)]
    rfl

theorem isIdentifier_main : IsIdentifier "main" := by
  have hall : "main".toList.all isIdentifierCharacter = true := by decide
  refine ⟨by decide, fun c hc => ?_, by decide⟩
  exact isIdentifierCharacter_iff.mp (List.all_eq_true.mp hall c hc)

/-- Whatever the name, an identifier is made of it. -/
theorem isIdentifier_identifierOf (raw : String) : IsIdentifier (identifierOf raw) := by
  by_cases hraw : raw = ""
  · rw [hraw, identifierOf_empty]
    exact isIdentifier_main
  have hmade := toList_identifierOf hraw
  refine ⟨(isName_identifierOf raw).1, fun c hc => ?_, ?_⟩
  · rw [hmade, List.mem_append] at hc
    rcases hc with hc | hc
    · split at hc
      · obtain rfl := List.mem_singleton.mp hc
        exact .inr (.inr (.inr (.inl rfl)))
      · cases hc
    · obtain ⟨d, -, rfl⟩ := List.mem_map.mp hc
      exact mayStand_kept d
  · obtain ⟨c, cs, hcs⟩ := List.exists_cons_of_ne_nil (mt String.toList_eq_nil_iff.mp hraw)
    by_cases hdigit : LeadingDigit raw
    · -- An underscore stands ahead of the digit.
      rw [if_pos hdigit] at hmade
      rw [leadingDigit_iff hmade]
      exact nofun
    · rw [if_neg hdigit, hcs] at hmade
      rw [leadingDigit_iff hmade, isDigit_kept, ← leadingDigit_iff hcs]
      exact hdigit

/-- Identifiers are the names that stay as they are. -/
theorem identifierOf_eq_self_iff {raw : String} : identifierOf raw = raw ↔ IsIdentifier raw := by
  constructor
  · intro h
    rw [← h]
    exact isIdentifier_identifierOf raw
  · intro h
    have hkept : raw.toList.map kept = raw.toList :=
      (List.map_congr_left fun c hc => kept_eq_self (h.characters c hc)).trans (List.map_id _)
    rw [← String.toList_inj, toList_identifierOf h.ne_empty, if_neg h.first, hkept]
    rfl

/-- A name keeps its length, but for an underscore ahead of a leading digit. -/
theorem length_identifierOf (raw : String) : (identifierOf raw).length =
    if raw = "" then 4 else raw.length + if LeadingDigit raw then 1 else 0 := by
  split
  · rename_i hraw
    rw [hraw, identifierOf_empty]
    rfl
  · rename_i hraw
    rw [← String.length_toList, toList_identifierOf hraw, List.length_append, List.length_map,
      String.length_toList, Nat.add_comm]
    congr 1
    split <;> rfl

/-! ## Entry points -/

/-- The name of an entry point, compared with what it is made of. -/
structure IsMadeOf (raw name : String) : Prop where
  identifier : IsIdentifier name
  /-- A name is read off a line as a whole. -/
  read : Assembly.name name.toList = .ok (name, [])
  /-- It is another one only if there was no identifier yet. -/
  unchanged : name = raw ↔ IsIdentifier raw
  length : name.length = if raw = "" then 4 else raw.length + if LeadingDigit raw then 1 else 0

/-- An entry point bears an identifier, and giving that to the circuit or in the options as its name
leads to the same one. -/
theorem entryPointName_isMadeOf (c : Circuit) (o : Options) :
    IsMadeOf (o.entryPoint.getD c.name) (entryPointName c o) ∧
      entryPointName c { o with entryPoint := some (entryPointName c o) } = entryPointName c o ∧
      entryPointName { c with name := entryPointName c o } { o with entryPoint := none } =
        entryPointName c o := by
  generalize hraw : o.entryPoint.getD c.name = raw
  have hname : entryPointName c o = identifierOf raw := by rw [entryPointName, hraw]
  have hagain : identifierOf (identifierOf raw) = identifierOf raw :=
    identifierOf_eq_self_iff.mpr (isIdentifier_identifierOf raw)
  have hread := Assembly.name_append (isName_identifierOf raw) (stops_nil _)
  rw [List.append_nil] at hread
  rw [hname]
  exact ⟨⟨isIdentifier_identifierOf raw, hread, identifierOf_eq_self_iff,
    length_identifierOf raw⟩, hagain, hagain⟩

example : identifierOf "9é b-ell" = "_9__b_ell" := by decide

end CircuitQir
