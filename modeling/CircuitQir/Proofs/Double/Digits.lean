import CircuitQir.Double.Text
import CircuitQir.Proofs.Double.Shortest
import CircuitQir.Proofs.Text.Runs
import CircuitQir.Text.Numeral
/-!
# The digits of a double

A finite double is written, in whichever format, as digits before a point, digits behind it if
there is one, and a power of ten if one is given. The decimal that these parts spell
(`Double.format_eq`) has the double as its nearest one (`Double.magnitude_written`), since it comes
from digits that are read as it. How such a text is read depends on the reader; that its parts are
runs of digits (`Spelled`) is what every reader goes by.
-/

namespace CircuitQir

/-! ## The layout of digits -/

/-- What stands behind the digits before the point. -/
def fractionText : Option (List Char) → List Char
  | none => []
  | some fraction => '.' :: fraction

/-- A power of ten with its sign, if one is given. -/
def powerText : Option Int → List Char
  | none => []
  | some e => 'e' :: (if e < 0 then '-' else '+') :: Nat.toDigits 10 e.natAbs

/-- Digits on both sides of a point, or in front of a missing one. -/
structure Spelled (whole : List Char) (fraction : Option (List Char)) : Prop where
  whole_ne : whole ≠ []
  whole_digits : ∀ c ∈ whole, c.isDigit = true
  fraction_ne : ∀ f ∈ fraction, f ≠ []
  fraction_digits : ∀ c ∈ fraction.getD [], c.isDigit = true

/-- No zero stands in front of other digits. -/
def Unpadded (whole : List Char) : Prop := whole = ['0'] ∨ whole.head? ≠ some '0'

theorem head?_toDigits_ne {n : Nat} (h : n ≠ 0) : (Nat.toDigits 10 n).head? ≠ some '0' := by
  obtain ⟨c, cs, hdigits, hc⟩ := head_toDigits (Nat.pos_of_ne_zero h)
  simpa [hdigits] using hc

namespace Decimal

/-- The decimal that digits, a point and a power of ten stand for. -/
def ofParts (whole : List Char) (fraction : Option (List Char)) (power : Option Int) : Decimal :=
  ⟨Numeral.value (whole ++ fraction.getD []), power.getD 0 - (fraction.getD []).length⟩

theorem value_digits (ds zeros : List Char) :
    Numeral.value (ds ++ zeros) = Nat.ofDigitChars 10 zeros (Numeral.value ds) :=
  Nat.ofDigitChars_append 0

/-- The same number with its zeros in front of the point among its digits. -/
def spelledOut (d : Decimal) : Decimal :=
  if 0 ≤ d.exponent then ⟨d.digits * 10 ^ d.exponent.toNat, 0⟩ else d

/-- The same number with a zero in one place more. -/
def withPlace (d : Decimal) : Decimal := ⟨10 * d.digits, d.exponent - 1⟩

theorem value_spelledOut (d : Decimal) : d.spelledOut.value = d.value := by
  unfold spelledOut
  split
  · rename_i he
    obtain ⟨n, hn⟩ := Int.eq_ofNat_of_zero_le he
    rw [value, value, hn, zpow_natCast]
    simp
  · rfl

theorem value_withPlace (d : Decimal) : d.withPlace.value = d.value := by
  rw [value, value, withPlace, zpow_sub_one₀ (by norm_num)]
  push_cast
  field_simp

/-- A zero behind the point is a place more. -/
theorem ofParts_place (whole : List Char) :
    ofParts whole (some ['0']) none = (ofParts whole none none).withPlace := by
  have hdigit : Numeral.value (whole ++ ['0']) = 10 * Numeral.value whole :=
    value_digits whole ['0']
  simp [ofParts, withPlace, hdigit]

/-- A zero behind the point changes nothing. -/
theorem value_ofParts_place (whole : List Char) :
    (ofParts whole (some ['0']) none).value = (ofParts whole none none).value := by
  rw [ofParts_place, value_withPlace]

theorem isDigit_of_mem_zeros (n : Nat) : ∀ c ∈ List.replicate n '0', c.isDigit = true := by
  intro c hc
  obtain rfl := List.eq_of_mem_replicate hc
  rfl

/-- The positional text of a decimal has these digits on the two sides of its point, and they
spell it out. -/
structure HasParts (d : Decimal) (whole : List Char) (fraction : Option (List Char)) : Prop where
  text : d.positional = whole ++ fractionText fraction
  spelled : Spelled whole fraction
  unpadded : d.digits ≠ 0 → Unpadded whole
  fraction_eq_none : fraction = none ↔ 0 ≤ d.exponent
  parts_eq : ofParts whole fraction none = d.spelledOut

section

variable {d : Decimal}

/-- A whole number has no point. -/
theorem hasParts_of_nonneg (he : 0 ≤ d.exponent) :
    d.HasParts (Nat.toDigits 10 d.digits ++ List.replicate d.exponent.toNat '0') none where
  text := (if_pos he).trans (List.append_nil _).symm
  spelled := by
    refine ⟨by simp, fun c hc => ?_, by simp, by simp⟩
    exact (List.mem_append.mp hc).elim (isDigit_of_mem_toDigits c) (isDigit_of_mem_zeros _ c)
  unpadded hzero := by
    refine .inr ?_
    rw [List.head?_append_of_ne_nil _ Nat.toDigits_ne_nil]
    exact head?_toDigits_ne hzero
  fraction_eq_none := iff_of_true rfl he
  parts_eq := by
    rw [ofParts, Option.getD_none, List.append_nil, value_digits, Numeral.value_toDigits,
      Nat.ofDigitChars_replicate_zero, spelledOut, if_pos he, Nat.mul_comm]
    rfl

theorem spelledOut_of_neg (he : ¬ 0 ≤ d.exponent) : d.spelledOut = d :=
  if_neg he

theorem toNat_neg_exponent (he : ¬ 0 ≤ d.exponent) :
    ((-d.exponent).toNat : ℤ) = -d.exponent :=
  Int.toNat_of_nonneg (by omega)

theorem ofParts_of_lt (he : ¬ 0 ≤ d.exponent)
    (hlt : (-d.exponent).toNat < (Nat.toDigits 10 d.digits).length) :
    ofParts ((Nat.toDigits 10 d.digits).take
        ((Nat.toDigits 10 d.digits).length - (-d.exponent).toNat))
      (some ((Nat.toDigits 10 d.digits).drop
        ((Nat.toDigits 10 d.digits).length - (-d.exponent).toNat))) none = d := by
  rw [ofParts, Option.getD_some, List.take_append_drop, Numeral.value_toDigits, List.length_drop,
    Nat.sub_sub_self hlt.le, toNat_neg_exponent he, Option.getD_none, zero_sub, neg_neg]

theorem ofParts_of_ge (he : ¬ 0 ≤ d.exponent)
    (hge : ¬ (-d.exponent).toNat < (Nat.toDigits 10 d.digits).length) :
    ofParts ['0'] (some (List.replicate
      ((-d.exponent).toNat - (Nat.toDigits 10 d.digits).length) '0' ++
        Nat.toDigits 10 d.digits)) none = d := by
  have hdigits : Nat.ofDigitChars 10 (Nat.toDigits 10 d.digits) 0 = d.digits :=
    Numeral.value_toDigits d.digits
  have hzero : Numeral.value ['0'] = 0 := rfl
  rw [ofParts, Option.getD_some, value_digits, hzero, Nat.ofDigitChars_append,
    Nat.ofDigitChars_replicate_zero, Nat.mul_zero, hdigits, List.length_append,
    List.length_replicate, Nat.sub_add_cancel (not_lt.mp hge), toNat_neg_exponent he,
    Option.getD_none, zero_sub, neg_neg]

/-- The point is between the digits. -/
theorem hasParts_of_lt (he : ¬ 0 ≤ d.exponent)
    (hlt : (-d.exponent).toNat < (Nat.toDigits 10 d.digits).length) :
    d.HasParts
      ((Nat.toDigits 10 d.digits).take ((Nat.toDigits 10 d.digits).length - (-d.exponent).toNat))
      (some ((Nat.toDigits 10 d.digits).drop
        ((Nat.toDigits 10 d.digits).length - (-d.exponent).toNat))) where
  text := (if_neg he).trans (if_pos hlt)
  spelled := by
    refine ⟨?_, fun c hc => isDigit_of_mem_toDigits c (List.mem_of_mem_take hc), ?_,
      fun c hc => isDigit_of_mem_toDigits c (List.mem_of_mem_drop hc)⟩
    · simp only [ne_eq, List.take_eq_nil_iff, not_or]
      exact ⟨by omega, Nat.toDigits_ne_nil⟩
    · rintro f hf
      obtain rfl := Option.some.inj hf
      rw [ne_eq, List.drop_eq_nil_iff]
      omega
  unpadded hzero := by
    refine .inr ?_
    rw [List.head?_take, if_neg (by omega)]
    exact head?_toDigits_ne hzero
  fraction_eq_none := iff_of_false (Option.some_ne_none _) he
  parts_eq := (ofParts_of_lt he hlt).trans (spelledOut_of_neg he).symm

/-- All digits are behind the point, and maybe zeros ahead of them. -/
theorem hasParts_of_ge (he : ¬ 0 ≤ d.exponent)
    (hge : ¬ (-d.exponent).toNat < (Nat.toDigits 10 d.digits).length) :
    d.HasParts ['0'] (some (List.replicate
      ((-d.exponent).toNat - (Nat.toDigits 10 d.digits).length) '0' ++
        Nat.toDigits 10 d.digits)) where
  text := (if_neg he).trans (if_neg hge)
  spelled := by
    refine ⟨by simp, by simp, ?_, fun c hc => ?_⟩
    · rintro f hf
      obtain rfl := Option.some.inj hf
      simp
    · exact (List.mem_append.mp hc).elim (isDigit_of_mem_zeros _ c) (isDigit_of_mem_toDigits c)
  unpadded _ := .inl rfl
  fraction_eq_none := iff_of_false (Option.some_ne_none _) he
  parts_eq := (ofParts_of_ge he hge).trans (spelledOut_of_neg he).symm

end

/-- The digits of a decimal, with the point in its place, spell its value. -/
theorem exists_hasParts (d : Decimal) : ∃ whole fraction, d.HasParts whole fraction := by
  by_cases he : 0 ≤ d.exponent
  · exact ⟨_, _, hasParts_of_nonneg he⟩
  · by_cases hlt : (-d.exponent).toNat < (Nat.toDigits 10 d.digits).length
    · exact ⟨_, _, hasParts_of_lt he hlt⟩
    · exact ⟨_, _, hasParts_of_ge he hlt⟩

/-- With some of its places behind the point, a decimal is spelled exactly. -/
theorem exists_hasParts_of_neg {d : Decimal} (h : d.exponent < 0) : ∃ whole fraction,
    d.HasParts whole (some fraction) ∧ ofParts whole (some fraction) none = d := by
  obtain ⟨whole, fraction, hparts⟩ := d.exists_hasParts
  cases fraction with
  | none => exact absurd (hparts.fraction_eq_none.mp rfl) (not_le.mpr h)
  | some fraction =>
    exact ⟨whole, fraction, hparts, hparts.parts_eq.trans (spelledOut_of_neg (not_le.mpr h))⟩

/-- With the point behind the first of its digits, and a power of ten, a decimal is spelled
exactly. -/
theorem scientific_eq (d : Decimal) : ∃ (whole : List Char) (fraction : Option (List Char))
    (e : Int), d.scientific = whole ++ fractionText fraction ++ powerText (some e) ∧
      Spelled whole fraction ∧ Unpadded whole ∧ ofParts whole fraction (some e) = d := by
  have hvalue := Numeral.value_toDigits d.digits
  have hdigits : ∀ c ∈ Nat.toDigits 10 d.digits, c.isDigit = true := isDigit_of_mem_toDigits
  have hunpadded : Unpadded ((Nat.toDigits 10 d.digits).take 1) := by
    by_cases hzero : d.digits = 0
    · rw [hzero]
      exact .inl rfl
    · rw [Unpadded, List.head?_take, if_neg (by decide)]
      exact .inr (head?_toDigits_ne hzero)
  unfold scientific
  dsimp only
  cases hds : Nat.toDigits 10 d.digits with
  | nil => exact absurd hds Nat.toDigits_ne_nil
  | cons c cs =>
    rw [hds] at hvalue hdigits hunpadded
    obtain ⟨hc, hcs⟩ := List.forall_mem_cons.mp hdigits
    have hwhole : ∀ x ∈ [c], x.isDigit = true := List.forall_mem_singleton.mpr hc
    cases cs with
    | nil =>
      refine ⟨[c], none, d.exponent + ([c].length : ℕ) - 1, rfl,
        ⟨List.cons_ne_nil _ _, hwhole, nofun, nofun⟩, hunpadded, ?_⟩
      rw [ofParts, Option.getD_none, List.append_nil, hvalue]
      simp
    | cons c' cs =>
      refine ⟨[c], some (c' :: cs), d.exponent + ((c :: c' :: cs).length : ℕ) - 1, rfl,
        ⟨List.cons_ne_nil _ _, hwhole, ?_, hcs⟩, hunpadded, ?_⟩
      · rintro f hf
        obtain rfl := Option.some.inj hf
        exact List.cons_ne_nil _ _
      · have hexponent : d.exponent + ((c :: c' :: cs).length : ℕ) - 1 - ((c' :: cs).length : ℕ) =
            d.exponent := by
          simp only [List.length_cons]
          omega
        rw [ofParts, Option.getD_some, List.singleton_append, hvalue, Option.getD_some, hexponent]

theorem digits_shortest_ne (tie : Tie) {k : ℕ} (hk : k < Magnitude.infinity) (hne : k ≠ 0) :
    (shortest tie k).digits ≠ 0 := by
  intro hzero
  have hread := magnitude_shortest tie hk
  rw [magnitude, if_pos hzero] at hread
  exact hne hread.symm

end Decimal

namespace NumberFormat

/-- A whole number with the place behind its point that a format keeps. -/
def placed (f : NumberFormat) (s : Decimal) : Decimal := if f.keepsPlace then s.withPlace else s

theorem value_placed (f : NumberFormat) (s : Decimal) : (f.placed s).value = s.value := by
  unfold placed
  split
  · exact s.value_withPlace
  · rfl

end NumberFormat

namespace Double

theorem toDouble_of_magnitude {d : Double} {s : Decimal} (h : s.magnitude = d.magnitude) :
    Decimal.toDouble d.isNegative s = d := by
  rw [Decimal.toDouble, h, ofMagnitude_isNegative_magnitude]

/-- The decimal that the text of a finite double spells in a format. -/
def written (f : NumberFormat) (d : Double) : Decimal :=
  if d.magnitude = 0 then f.placed ⟨0, 0⟩
  else
    let s := Decimal.shortest f.tie d.magnitude
    if f.positional (s.exponent + Decimal.width s.digits - 1) ∧ 0 ≤ s.exponent then
      f.placed s.spelledOut
    else s

theorem value_written (f : NumberFormat) {d : Double} (hne : d.magnitude ≠ 0) :
    (d.written f).value = (Decimal.shortest f.tie d.magnitude).value := by
  rw [written, if_neg hne]
  dsimp only
  split
  · rw [f.value_placed, Decimal.value_spelledOut]
  · rfl

/-- What is written has the double as its nearest one. -/
theorem magnitude_written (f : NumberFormat) {d : Double} (hd : d.isFinite = true) :
    (d.written f).magnitude = d.magnitude := by
  by_cases hzero : d.magnitude = 0
  · rw [written, if_pos hzero, hzero, Decimal.magnitude_congr (f.value_placed _)]
    decide
  · rw [Decimal.magnitude_congr (value_written f hzero),
      Decimal.magnitude_shortest f.tie (of_decide_eq_true hd)]

/-- A whole number may keep a place behind its point. -/
theorem exists_kept_place (f : NumberFormat) {whole : List Char} (hne : whole ≠ [])
    (hdigits : ∀ c ∈ whole, c.isDigit = true) : ∃ fraction,
      (if f.keepsPlace then ['.', '0'] else []) = fractionText fraction ∧
        Spelled whole fraction ∧ (f.keepsPlace = true → fraction.isSome) ∧
        Decimal.ofParts whole fraction none = f.placed (Decimal.ofParts whole none none) := by
  unfold NumberFormat.placed
  cases f.keepsPlace with
  | false => exact ⟨none, rfl, ⟨hne, hdigits, nofun, nofun⟩, nofun, rfl⟩
  | true =>
    exact ⟨some ['0'], rfl, ⟨hne, hdigits, by simp, by simp⟩, fun _ => rfl,
      Decimal.ofParts_place whole⟩

/-- A finite double is written in parts that spell its decimal. A whole number is told from others
by its missing point, unless the format keeps a place behind it. -/
theorem format_eq (f : NumberFormat) {d : Double} (hd : d.isFinite = true) :
    ∃ (whole : List Char) (fraction : Option (List Char)) (power : Option Int),
      d.format f = d.signText ++ (whole ++ fractionText fraction ++ powerText power) ∧
        Spelled whole fraction ∧ Unpadded whole ∧
        (f.keepsPlace = true → fraction.isSome ∨ power.isSome) ∧
        Decimal.ofParts whole fraction power = d.written f := by
  have hk : d.magnitude < Magnitude.infinity := of_decide_eq_true hd
  unfold format written
  dsimp only
  split
  · obtain ⟨fraction, htext, hspelled, hkept, hparts⟩ :=
      exists_kept_place f (List.cons_ne_nil '0' []) (by simp)
    exact ⟨['0'], fraction, none, by simp [htext, powerText], hspelled, .inl rfl,
      fun h => .inl (hkept h), hparts⟩
  · rename_i hzero
    have hdigits := Decimal.digits_shortest_ne f.tie hk hzero
    generalize Decimal.shortest f.tie d.magnitude = s at hdigits
    by_cases hpositional : f.positional (s.exponent + Decimal.width s.digits - 1) = true
    · obtain ⟨whole, fraction, h⟩ := s.exists_hasParts
      rw [if_pos hpositional, h.text]
      by_cases hexponent : 0 ≤ s.exponent
      · obtain rfl := h.fraction_eq_none.mpr hexponent
        obtain ⟨fraction, hkept, hspelled, hsome, hparts⟩ :=
          exists_kept_place f h.spelled.whole_ne h.spelled.whole_digits
        rw [h.parts_eq] at hparts
        rw [if_pos hexponent, if_pos (And.intro hpositional hexponent), hkept]
        exact ⟨whole, fraction, none, by simp [fractionText, powerText], hspelled,
          h.unpadded hdigits, fun h => .inl (hsome h), hparts⟩
      · rw [if_neg hexponent, if_neg fun h => hexponent h.2]
        refine ⟨whole, fraction, none, by simp [powerText], h.spelled, h.unpadded hdigits,
          fun _ => .inl ?_, h.parts_eq.trans (Decimal.spelledOut_of_neg hexponent)⟩
        exact Option.isSome_iff_ne_none.mpr (mt h.fraction_eq_none.mp hexponent)
    · obtain ⟨whole, fraction, e, htext, hspelled, hunpadded, hparts⟩ := s.scientific_eq
      rw [if_neg hpositional, if_neg fun h => hpositional h.1, htext]
      exact ⟨whole, fraction, some e, rfl, hspelled, hunpadded, fun _ => .inr rfl, hparts⟩

end Double

end CircuitQir
