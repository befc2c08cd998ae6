import CircuitQir.Proofs.Assembly.Rules
import CircuitQir.Proofs.Double.Literal
/-!
# Reading doubles back

A double that is no NaN is read back from its literal, bit by bit (`float_literal`): a whole
number from its exact digits, any other finite number from its shortest ones, and an infinity by
its name. Of all NaNs only one is read, whatever its name is written like, and so only that one is
read back.
-/

namespace CircuitQir

/-! ## Reading numbers -/

namespace Assembly.Rule

theorem toLower_of_goesOn {c : Char} (h : goesOn c = false) : c.toLower = c := by
  change (((decide ('A'.val ≤ c.val ∧ c.val ≤ 'Z'.val) || c.isLower) || c.isDigit) ||
    c == '.') = false at h
  simp only [Bool.or_eq_false_iff, decide_eq_false_iff_not] at h
  exact dif_neg h.1.1.1

theorem sign_append {negative : Bool} {line : List Char}
    (h : Stops isSign line) :
    sign ((if negative then ['-'] else []) ++ line) = .ok (negative, line) := by
  cases negative with
  | true => rfl
  | false =>
    show sign line = _
    unfold sign
    split
    · exact absurd (h '-' rfl) (by decide)
    · exact absurd (h '+' rfl) (by decide)
    · rfl

theorem stops_isSign_digits {ds : List Char} (hne : ds ≠ []) (hds : ∀ c ∈ ds, c.isDigit = true)
    (rest : List Char) : Stops isSign (ds ++ rest) := by
  cases ds with
  | nil => exact absurd rfl hne
  | cons c ds => exact stops_cons (isSign_of_isDigit (hds c (by simp)))

theorem pointed_append {whole : List Char} {fraction : Option (List Char)} {rest : List Char}
    (h : Spelled whole fraction) (hrest : Stops goesOn rest) :
    pointed (whole ++ fractionText fraction ++ rest) =
      .ok ((whole, fraction.getD []), rest) := by
  have hdigit : Stops Char.isDigit rest := hrest.mono fun c => isDigit_of_goesOn
  have hfirst : Stops Char.isDigit (fractionText fraction ++ rest) := by
    cases fraction with
    | none => exact hdigit
    | some fraction => exact stops_cons (by decide)
  have hoptional : optional (do literal "."; many Char.isDigit) (fractionText fraction ++ rest) =
      .ok (fraction, rest) := by
    cases fraction with
    | none =>
      have hnone : literal "." rest = .error rest := by
        cases rest with
        | nil => rfl
        | cons c rest =>
          have hc : c ≠ '.' := ne_of_goesOn (hrest c rfl) (by decide)
          simp [literal, afterPrefix?, hc.symm]
      exact optional_error (bind_error _ hnone)
    | some fraction =>
      have hpoint : literal "." (fractionText (some fraction) ++ rest) =
          .ok ((), fraction ++ rest) := rfl
      exact optional_ok ((bind_ok hpoint).trans (many_append h.fraction_digits hdigit))
  rw [List.append_assoc]
  refine either_ok _ ((bind_ok (many1_append h.whole_ne h.whole_digits hfirst)).trans ?_)
  exact (bind_ok hoptional).trans rfl

theorem power_stops {rest : List Char} (h : Stops goesOn rest) : power rest = .ok (0, rest) := by
  cases rest with
  | nil => rfl
  | cons c rest =>
    have he : c ≠ 'e' := ne_of_goesOn (h c rfl) (by decide)
    have hE : c ≠ 'E' := ne_of_goesOn (h c rfl) (by decide)
    show (if c == 'e' || c == 'E' then _ else _ : Rule Int) (c :: rest) = _
    rw [if_neg (by simp [he, hE])]
    rfl

/-- A number that was written with its point in place is read as the decimal it spells. -/
theorem decimal_append {negative : Bool} {whole : List Char} {fraction : Option (List Char)}
    {rest : List Char} (h : Spelled whole fraction) (hrest : Stops goesOn rest) :
    decimal ((if negative then ['-'] else []) ++ (whole ++ fractionText fraction ++ rest)) =
      .ok (Decimal.toDouble negative (.ofParts whole fraction none), rest) := by
  have hsign : Stops isSign (whole ++ fractionText fraction ++ rest) := by
    rw [List.append_assoc]
    exact stops_isSign_digits h.whole_ne h.whole_digits _
  refine (bind_ok (sign_append hsign)).trans ?_
  refine (bind_ok (pointed_append h hrest)).trans ?_
  exact (bind_ok (power_stops hrest)).trans rfl

/-- The name of an infinity is read as it. -/
theorem float_infinity {negative : Bool} {rest : List Char} (hrest : Stops goesOn rest) :
    float ((if negative then ['-'] else []) ++ ('i' :: 'n' :: 'f' :: rest)) =
      .ok (Double.infinity negative, rest) := by
  have hsign : sign ((if negative then ['-'] else []) ++ 'i' :: 'n' :: 'f' :: rest) =
      .ok (negative, 'i' :: 'n' :: 'f' :: rest) :=
    sign_append (stops_cons (by decide))
  have hdecimal : ∃ at_, decimal ((if negative then ['-'] else []) ++ 'i' :: 'n' :: 'f' :: rest) =
      .error at_ :=
    ⟨_, (bind_ok hsign).trans (bind_error _ rfl)⟩
  have hnan : ∃ at_, (do keyword "nan"; return Double.nan : Rule Double)
      ((if negative then ['-'] else []) ++ 'i' :: 'n' :: 'f' :: rest) = .error at_ := by
    cases negative <;> exact ⟨_, bind_error _ rfl⟩
  have hlong : ∃ at_, (do
      let negative ← sign
      keyword "infinity"
      return Double.infinity negative : Rule Double)
      ((if negative then ['-'] else []) ++ 'i' :: 'n' :: 'f' :: rest) = .error at_ := by
    refine ⟨'i' :: 'n' :: 'f' :: rest, (bind_ok hsign).trans (bind_error _ ?_)⟩
    cases rest with
    | nil => rfl
    | cons c rest =>
      have hc : c.toLower ≠ 'i' := by
        rw [toLower_of_goesOn (hrest c rfl)]
        exact ne_of_goesOn (hrest c rfl) (by decide)
      have hprefix : afterPrefix? "infinity".toList
          ((('i' :: 'n' :: 'f' :: c :: rest).take "infinity".length).map Char.toLower) = none := by
        show afterPrefix? ['i', 'n', 'f', 'i', 'n', 'i', 't', 'y']
          ('i' :: 'n' :: 'f' :: c.toLower :: (rest.take 4).map Char.toLower) = none
        simp [afterPrefix?, hc.symm]
      rw [keyword, hprefix]
  obtain ⟨at₁, hdecimal⟩ := hdecimal
  obtain ⟨at₂, hnan⟩ := hnan
  obtain ⟨at₃, hlong⟩ := hlong
  refine (either_error _ hdecimal).trans ((either_error _ hnan).trans
    ((either_error _ hlong).trans ((bind_ok hsign).trans ?_)))
  exact (bind_ok rfl).trans rfl

/-- The name of the NaN is read as it. -/
theorem float_nan (rest : List Char) :
    float ('N' :: 'a' :: 'N' :: rest) = .ok (Double.nan, rest) := by
  have hsign : sign ('N' :: 'a' :: 'N' :: rest) = .ok (false, 'N' :: 'a' :: 'N' :: rest) := rfl
  have hdecimal : ∃ at_, decimal ('N' :: 'a' :: 'N' :: rest) = .error at_ :=
    ⟨_, (bind_ok hsign).trans (bind_error _ rfl)⟩
  obtain ⟨at_, hdecimal⟩ := hdecimal
  have hnan : (do keyword "nan"; return Double.nan : Rule Double) ('N' :: 'a' :: 'N' :: rest) =
      .ok (Double.nan, rest) := (bind_ok rfl).trans rfl
  unfold float
  rw [choice_error _ _ hdecimal, choice_ok _ hnan]

end Assembly.Rule

/-! ## Literals -/

/-- The double is no NaN, or it is the NaN that has a name. -/
def Double.Legible (d : Double) : Prop := d.isNaN = true → d = nan

theorem Double.legible_of_not_isNaN {d : Double} (h : d.isNaN = false) : d.Legible := by
  intro hnan
  rw [h] at hnan
  cases hnan

theorem Double.isNaN_ofMagnitude (negative : Bool) {k : Nat} (h : k ≤ Magnitude.infinity) :
    (ofMagnitude negative k).isNaN = false := by
  have hlt : k < 2 ^ 63 := Nat.lt_of_le_of_lt h (by decide)
  rw [isNaN, magnitude_ofMagnitude negative hlt]
  exact decide_eq_false (Nat.not_lt.mpr h)

theorem Double.eq_infinity {d : Double} (hfinite : d.isFinite = false) (hnan : d.isNaN = false) :
    d = infinity d.isNegative := by
  have hmagnitude : d.magnitude = Magnitude.infinity := by
    simp only [isFinite, isNaN, decide_eq_false_iff_not] at hfinite hnan
    omega
  rw [infinity, ← hmagnitude, ofMagnitude_isNegative_magnitude]

open Assembly.Rule in
/-- A number is read back from its literal. -/
theorem Assembly.Rule.float_literal_number {d : Double} (hnan : d.isNaN = false)
    {rest : List Char} (hrest : Stops goesOn rest) :
    float (d.literal.toList ++ rest) = .ok (d, rest) := by
  cases hfinite : d.isFinite with
  | false =>
    rw [Double.toList_literal_infinite hfinite hnan, List.append_assoc]
    refine (float_infinity hrest).trans ?_
    rw [← Double.eq_infinity hfinite hnan]
  | true =>
    obtain ⟨whole, fraction, h⟩ := Double.exists_isWritten hfinite
    rw [h.text, List.append_assoc]
    refine either_ok _ ((decimal_append h.spelled hrest).trans ?_)
    rw [h.toDouble_ofParts hfinite]

open Assembly.Rule in
/-- A double is read back from its literal. -/
theorem Assembly.Rule.float_literal {d : Double} (h : d.Legible) {rest : List Char}
    (hrest : Stops goesOn rest) : float (d.literal.toList ++ rest) = .ok (d, rest) := by
  cases hnan : d.isNaN with
  | false => exact float_literal_number hnan hrest
  | true =>
    obtain rfl := h hnan
    exact float_nan rest

end CircuitQir
