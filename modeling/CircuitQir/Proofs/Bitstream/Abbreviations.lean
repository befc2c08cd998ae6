import CircuitQir.Proofs.Bitstream.Safety
/-!
# What abbreviations prescribe

An abbreviation prescribes fields for every record that fits it (`Abbreviation.fields`). A record
fits if its numbers, the code ahead of the operands, fit the scalars one by one and what is left of
them fits the aggregate. The fields are read back as the record, of which the abbreviation fixes
some numbers and the others are in the fields (`Abbreviation.Fits.reads`).

The definition of an abbreviation is a list of operands as they are declared. Among these a number
without bits is a literal zero.
-/

namespace CircuitQir.Bitstream

open Reader

/-! ## Records that fit -/

namespace Scalar

/-- A number that the scalar can stand for. -/
def Fits : Scalar → Nat → Prop
  | literal value, n => n = value
  | fixed width, n => n < 2 ^ width
  | vbr _, n => n < 2 ^ 64
  | character, n => ∃ c ∈ alphabet, c.toNat = n

instance : ∀ (s : Scalar) (n : Nat), Decidable (s.Fits n)
  | literal value, n => inferInstanceAs (Decidable (n = value))
  | fixed width, n => inferInstanceAs (Decidable (n < 2 ^ width))
  | vbr _, n => inferInstanceAs (Decidable (n < 2 ^ 64))
  | character, n => List.decidableBEx (fun c : Char => c.toNat = n) alphabet

/-- The fields of a number. -/
def fields : Scalar → Nat → List Field
  | literal _, _ => []
  | fixed width, n => [.number n width]
  | vbr width, n => width.fields n
  | character, n => [.number (alphabet.idxOf (Char.ofNat n)) 6]

/-- A character of the alphabet is found again by its place. -/
theorem characterCode_idxOf : ∀ c ∈ alphabet,
    alphabet.idxOf c < 2 ^ 6 ∧ characterCode (alphabet.idxOf c) = c.toNat := by
  have hall : alphabet.all (fun c => decide (alphabet.idxOf c < 2 ^ 6 ∧
      characterCode (alphabet.idxOf c) = c.toNat)) = true := by decide +kernel
  exact fun c hc => of_decide_eq_true (List.all_eq_true.mp hall c hc)

theorem Fits.reads {s : Scalar} {n : Nat} (h : s.Fits n) : Reads s.read n (s.fields n) := by
  cases s with
  | literal value =>
    obtain rfl : n = value := h
    exact reads_pure n
  | fixed width => exact reads_number h
  | vbr width => exact width.reads_vbr h
  | character =>
    obtain ⟨c, hc, rfl⟩ := h
    obtain ⟨hplace, hcode⟩ := characterCode_idxOf c hc
    rw [fields, Char.ofNat_toNat]
    have hread := (reads_number hplace).map characterCode
    rwa [hcode] at hread

end Scalar

namespace Aggregate

/-- The numbers and the bytes that the aggregate can stand for. -/
def Fits : Aggregate → List Nat → Option (List UInt8) → Prop
  | none, ns, bytes => ns = [] ∧ bytes = .none
  | array element, ns, bytes =>
    ns.length < 2 ^ 64 ∧ (∀ n ∈ ns, element.Fits n) ∧ bytes = .none
  | blob, ns, bytes => ns = [] ∧ ∃ bs ∈ bytes, bs.length < 2 ^ 64

instance : ∀ (a : Aggregate) (ns : List Nat) (bytes : Option (List UInt8)),
    Decidable (a.Fits ns bytes)
  | none, ns, bytes => inferInstanceAs (Decidable (ns = [] ∧ bytes = .none))
  | array element, ns, bytes => inferInstanceAs
      (Decidable (ns.length < 2 ^ 64 ∧ (∀ n ∈ ns, element.Fits n) ∧ bytes = .none))
  | blob, ns, bytes => inferInstanceAs (Decidable (ns = [] ∧ ∃ bs ∈ bytes, bs.length < 2 ^ 64))

/-- The fields of the numbers and of the bytes. -/
def fields : Aggregate → List Nat → Option (List UInt8) → List Field
  | none, _, _ => []
  | array element, ns, _ => VbrWidth.six.fields ns.length ++ ns.flatMap element.fields
  | blob, _, bytes => Record.blobFields (bytes.getD [])

end Aggregate

/-- The code of a record, ahead of its operands. -/
def Record.numbers (r : Record) : List Nat := r.code :: r.ops

namespace Abbreviation

/-- A record that the abbreviation can lay out. -/
structure Fits (a : Abbreviation) (r : Record) : Prop where
  scalars_ne : a.scalars ≠ []
  scalars : List.Forall₂ Scalar.Fits a.scalars (r.numbers.take a.scalars.length)
  aggregate : a.aggregate.Fits (r.numbers.drop a.scalars.length) r.blob

theorem fits_iff {a : Abbreviation} {r : Record} : a.Fits r ↔
    a.scalars ≠ [] ∧
      List.Forall₂ Scalar.Fits a.scalars (r.numbers.take a.scalars.length) ∧
        a.aggregate.Fits (r.numbers.drop a.scalars.length) r.blob :=
  ⟨fun h => ⟨h.scalars_ne, h.scalars, h.aggregate⟩, fun ⟨hne, hs, ha⟩ => ⟨hne, hs, ha⟩⟩

instance (a : Abbreviation) (r : Record) : Decidable (a.Fits r) :=
  decidable_of_iff _ fits_iff.symm

/-- The fields that the abbreviation prescribes for a record. -/
def fields (a : Abbreviation) (r : Record) : List Field :=
  (List.zipWith Scalar.fields a.scalars (r.numbers.take a.scalars.length)).flatten ++
    a.aggregate.fields (r.numbers.drop a.scalars.length) r.blob

end Abbreviation

/-! ## Reading them -/

namespace Record

theorem reads_readScalars {ss : List Scalar} {ns : List Nat}
    (h : List.Forall₂ Scalar.Fits ss ns) :
    Reads (readScalars ss) ns (List.zipWith Scalar.fields ss ns).flatten := by
  induction h with
  | nil => exact reads_pure []
  | cons hn _ ih => exact hn.reads.bind (ih.map _)

/-- Reads what follows the scalars of a record. -/
def readRest (code : Nat) (ops : List Nat) : Aggregate → Reader Record
  | .none => return ⟨code, ops, none⟩
  | .array element => do
    let count ← VbrWidth.six.read
    return ⟨code, ops ++ (← Reader.times element.read count), none⟩
  | .blob => return ⟨code, ops, some (← readBlob)⟩

theorem readAbbreviated_cons (first : Scalar) (others : List Scalar) (aggregate : Aggregate) :
    readAbbreviated ⟨first :: others, aggregate⟩ =
      first.read >>= fun code => readScalars others >>= fun ops =>
        readRest code ops aggregate := by
  cases aggregate <;> rfl

theorem reads_readRest (code : Nat) (ops : List Nat) {aggregate : Aggregate} {ns : List Nat}
    {blob : Option (List UInt8)} (h : aggregate.Fits ns blob) :
    Reads (readRest code ops aggregate) ⟨code, ops ++ ns, blob⟩ (aggregate.fields ns blob) := by
  cases aggregate with
  | none =>
    obtain ⟨rfl, rfl⟩ := h
    rw [List.append_nil]
    exact reads_pure _
  | array element =>
    obtain ⟨hlength, hns, rfl⟩ := h
    have helements : Reads (times element.read ns.length) ns (ns.flatMap element.fields) :=
      reads_times fun n hn => (hns n hn).reads
    exact (VbrWidth.six.reads_vbr hlength).bind 
      (helements.map fun ns => Record.mk code (ops ++ ns) none)
  | blob =>
    obtain ⟨rfl, bytes, hbytes, hlength⟩ := h
    obtain rfl := Option.mem_def.mp hbytes
    rw [List.append_nil]
    exact (reads_readBlob hlength).map fun bytes => Record.mk code ops (some bytes)

end Record

namespace Abbreviation

/-- A record that fits is read from exactly the fields that are prescribed for it. -/
theorem Fits.reads {a : Abbreviation} {r : Record} (h : a.Fits r) :
    Reads (Record.readAbbreviated a) r (a.fields r) := by
  obtain ⟨scalars, aggregate⟩ := a
  obtain ⟨code, ops, blob⟩ := r
  obtain ⟨hne, hscalars, haggregate⟩ := h
  cases scalars with
  | nil => exact absurd rfl hne
  | cons first others =>
    simp only [Record.numbers, List.length_cons, List.take_succ_cons, List.drop_succ_cons]
      at hscalars haggregate
    obtain ⟨hcode, hothers⟩ := List.forall₂_cons.mp hscalars
    have hfields : fields ⟨first :: others, aggregate⟩ ⟨code, ops, blob⟩ =
        first.fields code ++
          ((List.zipWith Scalar.fields others (ops.take others.length)).flatten ++
            aggregate.fields (ops.drop others.length) blob) := by
      simp [fields, Record.numbers]
    have hrest := Record.reads_readRest code (ops.take others.length) haggregate
    rw [List.take_append_drop] at hrest
    rw [hfields, Record.readAbbreviated_cons]
    exact hcode.reads.bind ((Record.reads_readScalars hothers).bind hrest)

end Abbreviation

/-! ## Definitions -/

/-- An operand as it is declared in a definition. -/
inductive DeclaredOperand where
  | literal (value : Nat)
  | fixed (width : Nat)
  | vbr (width : Nat)
  | array
  | character
  | blob
deriving DecidableEq, Repr

namespace DeclaredOperand

/-- The declarations that are not malformed. -/
def InRange : DeclaredOperand → Prop
  | literal value => value < 2 ^ 64
  | fixed width => width ≤ 64
  | vbr width => width ≠ 1 ∧ width ≤ 64
  | array | character | blob => True

instance : ∀ o : DeclaredOperand, Decidable o.InRange
  | literal value => inferInstanceAs (Decidable (value < 2 ^ 64))
  | fixed width => inferInstanceAs (Decidable (width ≤ 64))
  | vbr width => inferInstanceAs (Decidable (width ≠ 1 ∧ width ≤ 64))
  | array | character | blob => inferInstanceAs (Decidable True)

/-- What is declared. A number without bits is always zero. -/
def operand : DeclaredOperand → AbbreviationOperand
  | literal value => .scalar (.literal value)
  | fixed width => .scalar (if width = 0 then .literal 0 else .fixed width)
  | vbr width => .scalar (if h : 2 ≤ width then .vbr ⟨width, h⟩ else .literal 0)
  | array => .array
  | character => .scalar .character
  | blob => .blob

/-- An operand that is not a literal has an encoding, and may have a width. -/
def fields : DeclaredOperand → List Field
  | literal value => .number 1 1 :: VbrWidth.eight.fields value
  | fixed width => .number 0 1 :: .number 1 3 :: VbrWidth.five.fields width
  | vbr width => .number 0 1 :: .number 2 3 :: VbrWidth.five.fields width
  | array => [.number 0 1, .number 3 3]
  | character => [.number 0 1, .number 4 3]
  | blob => [.number 0 1, .number 5 3]

theorem reads_readWidth (start : Nat) {width : Nat} (h : width ≤ 64) :
    Reads (AbbreviationOperand.readWidth start) width (VbrWidth.five.fields width) := by
  refine (VbrWidth.five.reads_vbr (by omega)).last ?_
  rw [if_pos h]
  exact reads_pure width

/-- The flag of an operand that is not a literal. -/
theorem reads_flag : Reads (number 1) 0 [.number 0 1] := reads_number (by decide)

theorem reads_read (start : Nat) : ∀ {o : DeclaredOperand}, o.InRange →
    Reads (AbbreviationOperand.read start) o.operand o.fields
  | literal value, h => AbbreviationOperand.reads_literal start h
  | fixed width, h => by
    have hwidth := (reads_readWidth start h).map fun width =>
      AbbreviationOperand.scalar (if width = 0 then .literal 0 else .fixed width)
    exact reads_flag.bind ((reads_number (by decide : 1 < 2 ^ 3)).bind hwidth)
  | vbr width, ⟨hone, hmax⟩ => by
    refine reads_flag.bind ((reads_number (by decide : 2 < 2 ^ 3)).bind
      ((reads_readWidth start hmax).last ?_))
    by_cases hw : 2 ≤ width
    · rw [operand, dif_pos hw, dif_pos hw]
      exact reads_pure _
    · rw [operand, dif_neg hw, dif_neg hw, if_pos (by omega)]
      exact reads_pure _
  | array, _ => reads_flag.bind ((reads_number (by decide : 3 < 2 ^ 3)).last (reads_pure _))
  | character, _ => reads_flag.bind ((reads_number (by decide : 4 < 2 ^ 3)).last (reads_pure _))
  | blob, _ => AbbreviationOperand.reads_blob start

end DeclaredOperand

namespace Abbreviation

/-- The operands are those of a definition of the abbreviation. -/
structure DeclaredBy (a : Abbreviation) (os : List DeclaredOperand) : Prop where
  ne_nil : os ≠ []
  length_lt : os.length < 2 ^ 64
  inRange : ∀ o ∈ os, o.InRange
  ofOperands_eq : ofOperands (os.map DeclaredOperand.operand) = .ok a

/-- The fields of a definition. -/
def definitionFields (os : List DeclaredOperand) : List Field :=
  VbrWidth.five.fields os.length ++ os.flatMap DeclaredOperand.fields

/-- A definition is read back. -/
theorem DeclaredBy.reads {a : Abbreviation} {os : List DeclaredOperand} (h : a.DeclaredBy os) :
    Reads read a (definitionFields os) := by
  refine reads_position fun start => (VbrWidth.five.reads_vbr h.length_lt).bind ?_
  have hoperands : Reads (times (AbbreviationOperand.read start) os.length)
      (os.map DeclaredOperand.operand) (os.flatMap DeclaredOperand.fields) :=
    reads_times_map fun o ho => DeclaredOperand.reads_read start (h.inRange o ho)
  refine hoperands.last ?_
  have hne : (os.map DeclaredOperand.operand).isEmpty = false := by
    simpa using h.ne_nil
  rw [h.ofOperands_eq, hne]
  exact reads_pure a

end Abbreviation

end CircuitQir.Bitstream
