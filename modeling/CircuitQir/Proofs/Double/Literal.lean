import CircuitQir.Proofs.Double.Digits
import CircuitQir.Proofs.Double.Fewest
/-!
# Literals of doubles

A whole double is written with all its digits and `.0`, any other finite double with no more digits
than it takes, and neither with a power of ten (`Double.exists_isWritten`). No double is nearer to
what is written, so that every reader that rounds correctly reads it back.
-/

namespace CircuitQir

/-- With a single zero behind the point, the digits before it are what the text stands for. -/
theorem Decimal.value_ofParts_whole (whole : List Char) :
    (ofParts whole (some ['0']) none).value = (Numeral.value whole : ℕ) := by
  rw [value_ofParts_place, value, ofParts, Option.getD_none, List.append_nil]
  simp

namespace Double

/-! ## Names -/

theorem literal_of_isNaN {d : Double} (h : d.isNaN = true) : d.literal = "NaN" := by
  have hfinite : d.isFinite = false := by
    simp only [isFinite, isNaN, decide_eq_true_eq, decide_eq_false_iff_not] at h ⊢
    omega
  rw [literal, hfinite, Bool.false_and, if_neg (by simp), text, if_pos h]

theorem toList_literal_infinite {d : Double} (hfinite : d.isFinite = false)
    (hnan : d.isNaN = false) :
    d.literal.toList = (if d.isNegative then ['-'] else []) ++ ['i', 'n', 'f'] := by
  rw [literal, hfinite, Bool.false_and, if_neg (by simp), text, hnan, hfinite, if_neg (by simp),
    if_neg (by simp), String.toList_ofList, signText]

/-! ## Numbers -/

/-- The number that a finite double stands for. Both zeros stand for zero. -/
def value (d : Double) : ℚ :=
  if d.isNegative then -Magnitude.value d.magnitude else Magnitude.value d.magnitude

theorem abs_value (d : Double) : |d.value| = Magnitude.value d.magnitude := by
  have hnonneg := Magnitude.value_nonneg d.magnitude
  unfold value
  split
  · rw [abs_neg, abs_of_nonneg hnonneg]
  · exact abs_of_nonneg hnonneg

theorem isWhole_iff {d : Double} :
    Magnitude.isWhole d.magnitude = true ↔ ∃ n : ℤ, d.value = n := by
  rw [Magnitude.isWhole_iff]
  constructor
  · rintro ⟨n, hn⟩
    unfold value
    rw [hn]
    split
    · exact ⟨-n, by push_cast; rfl⟩
    · exact ⟨n, by push_cast; rfl⟩
  · rintro ⟨n, hn⟩
    refine ⟨n.natAbs, ?_⟩
    rw [← abs_value, hn, Nat.cast_natAbs, Int.cast_abs]

/-- Rounded down and rounded up, a whole number differs by nothing, any other by one. -/
theorem exists_intCast_iff (q : ℚ) :
    (∃ n : ℤ, q = n) ↔ |(⌊q⌋ : ℚ) - ⌈q⌉| < 2 ^ (-52 : ℤ) := by
  constructor
  · rintro ⟨n, rfl⟩
    rw [Int.floor_intCast, Int.ceil_intCast, sub_self, abs_zero]
    positivity
  · intro h
    have hone : |(⌊q⌋ : ℚ) - ⌈q⌉| < 1 := h.trans (by norm_num)
    have heq : ⌊q⌋ = ⌈q⌉ := by
      rw [← sub_eq_zero, ← Int.abs_lt_one_iff]
      exact_mod_cast hone
    exact ⟨⌊q⌋, le_antisymm (heq ▸ Int.le_ceil q) (Int.floor_le q)⟩

/-- How a finite double is written: its sign if it has one, the digits before the point, and the
digits behind it. -/
structure IsWritten (d : Double) (whole fraction : List Char) : Prop where
  text : d.literal.toList = (if d.isNegative then ['-'] else []) ++ (whole ++ '.' :: fraction)
  /-- On both sides of the point are digits and nothing else. -/
  spelled : Spelled whole (some fraction)
  /-- A single zero behind the point marks a whole number. -/
  place : fraction = ['0'] ↔ ∃ n : ℤ, d.value = n
  /-- Whole numbers are told by what is left between rounding down and rounding up. -/
  test : fraction = ['0'] ↔ |(⌊d.value⌋ : ℚ) - ⌈d.value⌉| < 2 ^ (-52 : ℤ)
  /-- All digits of a whole number are there. -/
  exact : fraction = ['0'] →
    d.value = if d.isNegative then -(Decimal.ofParts whole (some fraction) none).value
      else (Decimal.ofParts whole (some fraction) none).value
  /-- Any other number has no more digits than it takes: no decimal that is read as it has fewer,
  and none with as many is nearer to it, or as near and greater. -/
  fewest : fraction ≠ ['0'] → ∀ s : Decimal, Decimal.toDouble d.isNegative s = d →
    Decimal.width (Decimal.ofParts whole (some fraction) none).digits ≤ Decimal.width s.digits ∧
      (Decimal.width (Decimal.ofParts whole (some fraction) none).digits =
          Decimal.width s.digits →
        Decimal.Precedes .up |d.value| (Decimal.ofParts whole (some fraction) none).value s.value)
  /-- No double is nearer to what is written. -/
  nearest : Magnitude.IsNearest (Decimal.ofParts whole (some fraction) none).value d.magnitude

/-- A finite double that is not zero in its everyday form: its shortest digits. -/
theorem format_everyday {d : Double} (h : d.magnitude ≠ 0) :
    d.format everyday = d.signText ++ (Decimal.shortest .up d.magnitude).positional := by
  rw [format, if_neg h]
  simp [everyday]

section

variable {d : Double} (hd : d.magnitude < Magnitude.infinity)

include hd

theorem isNearest_of_magnitude {s : Decimal} (h : s.magnitude = d.magnitude) :
    Magnitude.IsNearest s.value d.magnitude := by
  rw [Decimal.magnitude_eq_ofRat] at h
  exact (Magnitude.ofRat_eq_iff s.value_nonneg hd).mp h

theorem isWritten_whole (h : Magnitude.isWhole d.magnitude = true) :
    d.IsWritten (Nat.toDigits 10 (Magnitude.numerator d.magnitude /
      Magnitude.denominator d.magnitude)) ['0'] := by
  have hfinite : d.isFinite = true := decide_eq_true hd
  have hvalue : (Decimal.ofParts (Nat.toDigits 10 (Magnitude.numerator d.magnitude /
      Magnitude.denominator d.magnitude)) (some ['0']) none).value =
        Magnitude.value d.magnitude := by
    rw [Decimal.value_ofParts_whole, Numeral.value_toDigits, Magnitude.value_of_isWhole h]
  exact {
    text := by
      rw [literal, hfinite, h, Bool.and_self, if_pos rfl, String.toList_ofList, signText,
        List.append_assoc]
    spelled := ⟨Nat.toDigits_ne_nil, isDigit_of_mem_toDigits, by simp, by simp⟩
    place := iff_of_true rfl (isWhole_iff.mp h)
    test := iff_of_true rfl ((exists_intCast_iff _).mp (isWhole_iff.mp h))
    exact := fun _ => by rw [hvalue, value]
    fewest := fun hne => absurd rfl hne
    nearest := by
      rw [hvalue]
      exact (Magnitude.ofRat_eq_iff (Magnitude.value_nonneg _) hd).mp (Magnitude.ofRat_value hd) }

theorem exists_isWritten_fraction (h : Magnitude.isWhole d.magnitude = false) :
    ∃ whole fraction, d.IsWritten whole fraction := by
  have hfinite : d.isFinite = true := decide_eq_true hd
  have hnan : d.isNaN = false := decide_eq_false hd.not_gt
  have hne : d.magnitude ≠ 0 := by
    intro hzero
    rw [hzero, Magnitude.isWhole_iff.mpr ⟨0, by rw [Magnitude.value_zero, Nat.cast_zero]⟩] at h
    cases h
  have hnot : ¬ ∃ n : ℤ, d.value = n := mt isWhole_iff.mpr (Bool.eq_false_iff.mp h)
  have hread := Decimal.magnitude_shortest .up hd
  obtain ⟨whole, fraction, hparts, hexact⟩ :=
    Decimal.exists_hasParts_of_neg (Decimal.exponent_shortest_neg .up hd h)
  have hplace : fraction ≠ ['0'] := by
    rintro rfl
    have hvalue := Decimal.value_ofParts_whole whole
    rw [hexact] at hvalue
    rw [Decimal.isWhole_of_value_eq_natCast hd hread hvalue] at h
    cases h
  refine ⟨whole, fraction, {
    text := ?_
    spelled := hparts.spelled
    place := iff_of_false hplace hnot
    test := iff_of_false hplace (mt (exists_intCast_iff _).mpr hnot)
    exact := fun heq => absurd heq hplace
    fewest := ?_
    nearest := ?_ }⟩
  · rw [literal, h, Bool.and_false, if_neg (by simp), Double.text, hnan, hfinite, if_neg (by simp),
      if_pos rfl, String.toList_ofList, format_everyday hne, hparts.text, signText]
    rfl
  · intro _ s hs
    have hmagnitude : s.magnitude = d.magnitude := by
      rw [← hs, Decimal.toDouble, magnitude_ofMagnitude _
        (s.magnitude_le_infinity.trans_lt (by decide))]
    rw [hexact, abs_value]
    exact Decimal.shortest_spec .up hd hne hmagnitude
  · rw [hexact]
    exact isNearest_of_magnitude hd hread

end

theorem exists_isWritten {d : Double} (hd : d.isFinite = true) :
    ∃ whole fraction, d.IsWritten whole fraction := by
  have hfinite : d.magnitude < Magnitude.infinity := of_decide_eq_true hd
  cases h : Magnitude.isWhole d.magnitude with
  | true => exact ⟨_, _, isWritten_whole hfinite h⟩
  | false => exact exists_isWritten_fraction hfinite h

/-- What is nearest to the written digits is what they are read as. -/
theorem IsWritten.toDouble_ofParts {d : Double} {whole fraction : List Char}
    (h : d.IsWritten whole fraction) (hd : d.isFinite = true) :
    Decimal.toDouble d.isNegative (.ofParts whole (some fraction) none) = d := by
  refine toDouble_of_magnitude ?_
  rw [Decimal.magnitude_eq_ofRat]
  exact (Magnitude.ofRat_eq_iff (Decimal.value_nonneg _) (of_decide_eq_true hd)).mpr h.nearest

end Double

end CircuitQir
