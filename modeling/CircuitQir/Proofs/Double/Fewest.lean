import Mathlib.Data.Nat.Prime.Basic
import CircuitQir.Proofs.Double.Nearest
import CircuitQir.Proofs.Double.Shortest
import CircuitQir.Proofs.Lists
/-!
# The fewest digits

`Decimal.shortest` tries the two neighbours of a value on finer and finer grids. That is enough: if
any decimal is read as a magnitude, then one with as many digits or fewer is, on a grid that starts
at the magnitude's first digit (`exists_onGrid`), and if a grid has one at all, then a neighbour is
one (`exists_onGrid?`). So no decimal that is read as the magnitude has fewer digits than the one
found, and none with as many is nearer (`shortest_spec`).

A whole number is rounded to a whole one, so what is not whole is written with places behind its
point (`exponent_shortest_neg`).
-/

namespace CircuitQir.Decimal

open Magnitude (denominator denominator_pos numerator)

theorem value_nonneg (d : Decimal) : 0 ≤ d.value := by
  unfold value
  positivity

theorem magnitude_mono {d d' : Decimal} (h : d.value ≤ d'.value) : d.magnitude ≤ d'.magnitude := by
  rw [magnitude_eq_ofRat, magnitude_eq_ofRat]
  exact Magnitude.ofRat_mono d.value_nonneg h

/-- What is between a magnitude and a decimal that is read as it, is read as it. -/
theorem magnitude_between {k : ℕ} (hk : k < Magnitude.infinity) {d d' : Decimal}
    (hd : d.magnitude = k)
    (h : d.value ≤ d'.value ∧ d'.value ≤ Magnitude.value k ∨
      Magnitude.value k ≤ d'.value ∧ d'.value ≤ d.value) : d'.magnitude = k := by
  have hexact := magnitude_exact hk
  rcases h with ⟨hl, hu⟩ | ⟨hl, hu⟩
  · rw [← value_exact] at hu
    exact le_antisymm ((magnitude_mono hu).trans_eq hexact) (hd.symm.trans_le (magnitude_mono hl))
  · rw [← value_exact] at hl
    exact le_antisymm ((magnitude_mono hu).trans_eq hd) (hexact.symm.trans_le (magnitude_mono hl))

/-! ## The first digit -/

/-- No power of ten below one is a magnitude: its denominator has the factor five. -/
theorem value_mul_ten_pow_ne_one (k : ℕ) {m : ℕ} (hm : m ≠ 0) :
    Magnitude.value k * 10 ^ m ≠ 1 := by
  intro h
  have hpos : (denominator k : ℚ) ≠ 0 := by exact_mod_cast (denominator_pos k).ne'
  rw [Magnitude.value_eq_div, div_mul_eq_mul_div, div_eq_one_iff_eq hpos] at h
  have hnat : numerator k * 10 ^ m = denominator k := by exact_mod_cast h
  have hdvd : 5 ∣ 2 ^ (-Magnitude.exponent k).toNat := by
    refine Dvd.dvd.trans ?_ (Dvd.intro_left _ hnat)
    exact (by decide : 5 ∣ 10).trans (dvd_pow_self 10 hm)
  exact absurd (Nat.prime_five.dvd_of_dvd_pow hdvd) (by decide)

theorem leadingExponent_bounds {k : ℕ} (hk : k ≠ 0) :
    10 ^ leadingExponent k ≤ Magnitude.value k ∧
      Magnitude.value k < 10 ^ (leadingExponent k + 1) := by
  have hden := denominator_pos k
  have hpos : (0 : ℚ) < denominator k := by exact_mod_cast hden
  have hvalue := Magnitude.value_eq_div k
  have hnum : 0 < numerator k := by
    have := Magnitude.value_pos hk
    rw [hvalue, div_pos_iff_of_pos_right hpos] at this
    exact_mod_cast this
  unfold leadingExponent
  dsimp only
  split
  · rename_i hzero
    have hfraction : numerator k < denominator k := (Nat.div_eq_zero_iff_lt hden).mp hzero
    have hone : 0 < denominator k / numerator k := Nat.div_pos hfraction.le hnum
    obtain ⟨m, hm⟩ : ∃ m, width (denominator k / numerator k) = m + 1 :=
      Nat.exists_eq_succ_of_ne_zero (Nat.ne_of_gt Nat.length_toDigits_pos)
    have hlow := (Nat.div_lt_iff_lt_mul hnum).mp (lt_pow_width (denominator k / numerator k))
    have hhigh := (Nat.le_div_iff_mul_le hnum).mp (pow_width_le hone)
    rw [hm] at hlow hhigh
    have hexponent : -((m + 1 : ℕ) : ℤ) + 1 = -(m : ℤ) := by omega
    rw [hm, hexponent, zpow_neg, zpow_neg, zpow_natCast, zpow_natCast, ← one_div, ← one_div,
      div_le_iff₀ (by positivity), lt_div_iff₀ (by positivity)]
    refine ⟨?_, lt_of_le_of_ne ?_ ?_⟩
    · rw [hvalue, div_mul_eq_mul_div, one_le_div hpos]
      exact_mod_cast hlow.le.trans_eq (mul_comm _ _)
    · rw [hvalue, div_mul_eq_mul_div, div_le_one hpos]
      exact_mod_cast (mul_comm _ _).trans_le hhigh
    · rcases eq_or_ne m 0 with rfl | hne
      · rw [pow_zero, mul_one, hvalue, ne_eq, div_eq_one_iff_eq hpos.ne']
        exact_mod_cast hfraction.ne
      · exact value_mul_ten_pow_ne_one k hne
  · rename_i hwhole
    obtain ⟨m, hm⟩ : ∃ m, width (numerator k / denominator k) = m + 1 :=
      Nat.exists_eq_succ_of_ne_zero (Nat.ne_of_gt Nat.length_toDigits_pos)
    have hlow := (Nat.le_div_iff_mul_le hden).mp (pow_width_le (Nat.pos_of_ne_zero hwhole))
    have hhigh := (Nat.div_lt_iff_lt_mul hden).mp (lt_pow_width (numerator k / denominator k))
    rw [hm] at hlow hhigh
    rw [hm, Nat.cast_succ, add_sub_cancel_right, zpow_natCast, ← Nat.cast_succ, zpow_natCast,
      hvalue, le_div_iff₀ hpos, div_lt_iff₀ hpos]
    constructor
    · exact_mod_cast hlow
    · exact_mod_cast hhigh

/-! ## One grid -/

/-- A number is nearer to the value than another, or as near, and then it is not the lesser one
where a tie goes up. -/
def Precedes (tie : Tie) (v x y : ℚ) : Prop :=
  |x - v| < |y - v| ∨ |x - v| = |y - v| ∧ (tie = .up → y ≤ x)

section Precedes

variable {tie : Tie} {v x y z : ℚ}

theorem Precedes.refl (tie : Tie) (v x : ℚ) : Precedes tie v x x :=
  .inr ⟨rfl, fun _ => le_rfl⟩

theorem Precedes.trans (h : Precedes tie v x y) (h' : Precedes tie v y z) :
    Precedes tie v x z := by
  rcases h with h | ⟨h, hle⟩
  · rcases h' with h' | ⟨h', -⟩
    · exact .inl (h.trans h')
    · exact .inl (h.trans_eq h')
  · rcases h' with h' | ⟨h', hle'⟩
    · exact .inl (h.trans_lt h')
    · exact .inr ⟨h.trans h', fun htie => (hle' htie).trans (hle htie)⟩

theorem precedes_of_le (hyx : y ≤ x) (hxv : x ≤ v) : Precedes tie v x y := by
  rcases hyx.eq_or_lt with rfl | hlt
  · exact .refl tie v y
  · left
    rw [abs_of_nonpos (by linarith), abs_of_nonpos (by linarith)]
    linarith

theorem precedes_of_ge (hvx : v ≤ x) (hxy : x ≤ y) : Precedes tie v x y := by
  rcases hxy.eq_or_lt with rfl | hlt
  · exact .refl tie v x
  · left
    rw [abs_of_nonneg (by linarith), abs_of_nonneg (by linarith)]
    linarith

end Precedes

section Grid

variable {tie : Tie} {k : ℕ} {grid : ℤ}

/-- The last point of a grid that is not behind a magnitude. -/
def below (k : ℕ) (grid : ℤ) : Decimal := ⟨⌊Magnitude.value k / 10 ^ grid⌋₊, grid⟩

/-- The first point of a grid that is behind a magnitude. -/
def above (k : ℕ) (grid : ℤ) : Decimal := ⟨⌊Magnitude.value k / 10 ^ grid⌋₊ + 1, grid⟩

theorem value_below_le (k : ℕ) (grid : ℤ) : (below k grid).value ≤ Magnitude.value k := by
  have hunit : (0 : ℚ) < 10 ^ grid := by positivity
  rw [value, below, ← le_div_iff₀ hunit]
  exact Nat.floor_le (div_nonneg (Magnitude.value_nonneg k) hunit.le)

theorem lt_value_above (k : ℕ) (grid : ℤ) : Magnitude.value k < (above k grid).value := by
  have hunit : (0 : ℚ) < 10 ^ grid := by positivity
  rw [value, above, ← div_lt_iff₀ hunit, Nat.cast_succ]
  exact Nat.lt_floor_add_one _

theorem value_le_value {m n : ℕ} (h : m ≤ n) : value ⟨m, grid⟩ ≤ value ⟨n, grid⟩ := by
  unfold value
  gcongr

/-- There is no point between the two neighbours. -/
theorem le_below_or_above_le (k n : ℕ) (grid : ℤ) :
    value ⟨n, grid⟩ ≤ (below k grid).value ∨ (above k grid).value ≤ value ⟨n, grid⟩ :=
  (Nat.lt_or_ge ⌊Magnitude.value k / 10 ^ grid⌋₊ n).symm.imp value_le_value value_le_value

theorem onGrid_div (k : ℕ) (grid : ℤ) :
    ((numerator k * 10 ^ (-grid).toNat : ℕ) : ℚ) / (denominator k * 10 ^ grid.toNat : ℕ) =
      Magnitude.value k / 10 ^ grid := by
  rw [Magnitude.value_eq_div, ten_zpow_eq]
  push_cast
  field_simp

/-- The search, in terms of distances. -/
theorem onGrid?_eq (tie : Tie) (k : ℕ) (grid : ℤ) :
    onGrid? tie k grid =
      if (below k grid).magnitude = k then
        if (above k grid).magnitude = k ∧
          ((above k grid).value - Magnitude.value k < Magnitude.value k - (below k grid).value ∨
            (above k grid).value - Magnitude.value k = Magnitude.value k - (below k grid).value ∧
              (tie = .up ∨ (below k grid).digits % 2 = 1)) then
          some (above k grid)
        else some (below k grid)
      else if (above k grid).magnitude = k then some (above k grid)
      else none := by
  have hdiv := onGrid_div k grid
  unfold onGrid?
  dsimp only
  generalize numerator k * 10 ^ (-grid).toNat = n at hdiv
  generalize hd : denominator k * 10 ^ grid.toNat = d at hdiv
  have hpos : (0 : ℚ) < d := by
    rw [← hd]
    exact_mod_cast Nat.mul_pos (denominator_pos k) (Nat.pow_pos (by decide))
  have hunit : (0 : ℚ) < 10 ^ grid := by positivity
  have hfloor : n / d = ⌊Magnitude.value k / 10 ^ grid⌋₊ := by
    rw [← hdiv, Nat.floor_div_eq_div]
  have hrest : ((n % d : ℕ) : ℚ) =
      (Magnitude.value k / 10 ^ grid - ⌊Magnitude.value k / 10 ^ grid⌋₊) * d := by
    rw [← hfloor, ← hdiv, sub_mul, div_mul_cancel₀ _ hpos.ne', eq_sub_iff_add_eq]
    exact_mod_cast Nat.mod_add_div' n d
  have hscale : (0 : ℚ) < 10 ^ grid / d := div_pos hunit hpos
  have hbelow : Magnitude.value k - (below k grid).value = (n % d : ℕ) * (10 ^ grid / d) := by
    rw [hrest, value, below]
    field_simp
  have habove : (above k grid).value - Magnitude.value k =
      (d - (n % d : ℕ)) * (10 ^ grid / d) := by
    rw [hrest, value, above, Nat.cast_succ]
    field_simp
    ring
  have hlt : d < 2 * (n % d) ↔
      (above k grid).value - Magnitude.value k < Magnitude.value k - (below k grid).value := by
    rw [hbelow, habove, mul_lt_mul_iff_left₀ hscale, sub_lt_iff_lt_add, ← two_mul]
    exact_mod_cast Iff.rfl
  have heq : 2 * (n % d) = d ↔
      (above k grid).value - Magnitude.value k = Magnitude.value k - (below k grid).value := by
    rw [hbelow, habove, mul_left_inj' hscale.ne', sub_eq_iff_eq_add, ← two_mul, eq_comm]
    exact_mod_cast Iff.rfl
  simp only [hfloor, Bool.and_eq_true, Bool.or_eq_true, decide_eq_true_eq, beq_iff_eq, hlt, heq]
  rfl

/-- What is found on a grid is the neighbour that is read as the magnitude, and if both are, the one
that comes first. -/
theorem onGrid?_cases (tie : Tie) (k : ℕ) (grid : ℤ) :
    (onGrid? tie k grid = none ∧ (below k grid).magnitude ≠ k ∧ (above k grid).magnitude ≠ k) ∨
      (onGrid? tie k grid = some (below k grid) ∧ (below k grid).magnitude = k ∧
        ((above k grid).magnitude = k →
          Precedes tie (Magnitude.value k) (below k grid).value (above k grid).value)) ∨
      (onGrid? tie k grid = some (above k grid) ∧ (above k grid).magnitude = k ∧
        ((below k grid).magnitude = k →
          Precedes tie (Magnitude.value k) (above k grid).value (below k grid).value)) := by
  have hle := value_below_le k grid
  have hlt := lt_value_above k grid
  have hbelow : |(below k grid).value - Magnitude.value k| =
      Magnitude.value k - (below k grid).value := by
    rw [abs_sub_comm, abs_of_nonneg (sub_nonneg.mpr hle)]
  have habove : |(above k grid).value - Magnitude.value k| =
      (above k grid).value - Magnitude.value k := abs_of_pos (sub_pos.mpr hlt)
  rw [onGrid?_eq, Precedes, Precedes, hbelow, habove]
  by_cases hb : (below k grid).magnitude = k
  · rw [if_pos hb]
    right
    split
    · rename_i h
      exact .inr ⟨rfl, h.1, fun _ => h.2.imp_right fun htie => ⟨htie.1, fun _ => hle.trans hlt.le⟩⟩
    · rename_i h
      refine .inl ⟨rfl, hb, fun ha => ?_⟩
      rcases lt_trichotomy (Magnitude.value k - (below k grid).value)
        ((above k grid).value - Magnitude.value k) with hnear | htie | hfar
      · exact .inl hnear
      · exact .inr ⟨htie, fun hup => absurd ⟨ha, .inr ⟨htie.symm, .inl hup⟩⟩ h⟩
      · exact absurd ⟨ha, .inl hfar⟩ h
  · rw [if_neg hb]
    split
    · rename_i ha
      exact .inr (.inr ⟨rfl, ha, fun h => absurd h hb⟩)
    · rename_i ha
      exact .inl ⟨rfl, hb, ha⟩

theorem eq_of_onGrid? {d : Decimal} (h : onGrid? tie k grid = some d) :
    d = below k grid ∨ d = above k grid := by
  rcases onGrid?_cases tie k grid with ⟨heq, -⟩ | ⟨heq, -⟩ | ⟨heq, -⟩
  · rw [heq] at h
    cases h
  · exact .inl (Option.some.inj (h.symm.trans heq))
  · exact .inr (Option.some.inj (h.symm.trans heq))

section

variable {n : ℕ} (hk : k < Magnitude.infinity) (hn : (⟨n, grid⟩ : Decimal).magnitude = k)

include hk hn

/-- The neighbour on the side of a point that is read as the magnitude is read as it as well. -/
theorem magnitude_neighbour :
    ((below k grid).magnitude = k ∧ value ⟨n, grid⟩ ≤ (below k grid).value) ∨
      ((above k grid).magnitude = k ∧ (above k grid).value ≤ value ⟨n, grid⟩) := by
  rcases le_below_or_above_le k n grid with hle | hge
  · exact .inl ⟨magnitude_between hk hn (.inl ⟨hle, value_below_le k grid⟩), hle⟩
  · exact .inr ⟨magnitude_between hk hn (.inr ⟨(lt_value_above k grid).le, hge⟩), hge⟩

/-- If a grid has a point that is read as the magnitude, one is found. It comes before all
others. -/
theorem exists_onGrid? : ∃ d, onGrid? tie k grid = some d ∧
    Precedes tie (Magnitude.value k) d.value (value ⟨n, grid⟩) := by
  rcases onGrid?_cases tie k grid with ⟨-, hb, ha⟩ | ⟨heq, hb, hfirst⟩ | ⟨heq, ha, hfirst⟩
  · rcases magnitude_neighbour hk hn with ⟨h, -⟩ | ⟨h, -⟩
    · exact absurd h hb
    · exact absurd h ha
  · refine ⟨_, heq, ?_⟩
    rcases magnitude_neighbour hk hn with ⟨-, hle⟩ | ⟨ha, hge⟩
    · exact precedes_of_le hle (value_below_le k grid)
    · exact (hfirst ha).trans (precedes_of_ge (lt_value_above k grid).le hge)
  · refine ⟨_, heq, ?_⟩
    rcases magnitude_neighbour hk hn with ⟨hb, hle⟩ | ⟨-, hge⟩
    · exact (hfirst hb).trans (precedes_of_le hle (value_below_le k grid))
    · exact precedes_of_ge (lt_value_above k grid).le hge

end

end Grid

/-! ## All grids -/

section

variable {k : ℕ} (tie : Tie)

/-- A decimal that is read as a magnitude has its first digit where the magnitude has it, or else a
power of ten is between them. So a grid that starts there has a point that is as good. -/
theorem exists_onGrid (hk : k < Magnitude.infinity) (hne : k ≠ 0) {d : Decimal}
    (hd : d.magnitude = k) : ∃ i < width d.digits, ∃ n : ℕ,
      (⟨n, leadingExponent k - i⟩ : Decimal).magnitude = k ∧
        Precedes tie (Magnitude.value k) (value ⟨n, leadingExponent k - i⟩) d.value := by
  obtain ⟨hlow, hhigh⟩ := leadingExponent_bounds hne
  have hdigits : d.digits ≠ 0 := by
    intro hzero
    rw [magnitude, if_pos hzero] at hd
    exact hne hd.symm
  have hwidth : 0 < width d.digits := Nat.length_toDigits_pos
  have hl := le_value hdigits
  have hu := value_lt d
  rcases lt_trichotomy ((width d.digits : ℤ) + d.exponent - 1) (leadingExponent k)
    with hlt | heq | hgt
  · have hpower : value ⟨1, leadingExponent k - (0 : ℕ)⟩ = 10 ^ leadingExponent k := by
      simp [value]
    have hle : d.value ≤ 10 ^ leadingExponent k :=
      hu.le.trans (zpow_le_zpow_right₀ (by norm_num) (by omega))
    rw [← hpower] at hle hlow
    exact ⟨0, hwidth, 1, magnitude_between hk hd (.inl ⟨hle, hlow⟩), precedes_of_le hle hlow⟩
  · obtain ⟨digits, exponent⟩ := d
    obtain rfl : exponent = leadingExponent k - (width digits - 1 : ℕ) := by
      dsimp only at heq hwidth
      omega
    exact ⟨width digits - 1, by dsimp only at hwidth ⊢; omega, digits, hd, .refl tie _ _⟩
  · have hpower : value ⟨10, leadingExponent k - (0 : ℕ)⟩ = 10 ^ (leadingExponent k + 1) := by
      rw [zpow_add_one₀ (by norm_num), value, mul_comm]
      simp
    have hge : 10 ^ (leadingExponent k + 1) ≤ d.value :=
      (zpow_le_zpow_right₀ (by norm_num) (by omega)).trans hl
    rw [← hpower] at hge hhigh
    exact ⟨0, hwidth, 10, magnitude_between hk hd (.inr ⟨hhigh.le, hge⟩),
      precedes_of_ge hhigh.le hge⟩

/-- Seventeen digits are enough: half a step on their grid is little. -/
theorem exists_seventeen (hk : k < Magnitude.infinity) (hne : k ≠ 0) :
    ∃ n : ℕ, (⟨n, leadingExponent k - (16 : ℕ)⟩ : Decimal).magnitude = k := by
  obtain ⟨hlow, -⟩ := leadingExponent_bounds hne
  generalize hgrid : leadingExponent k - (16 : ℕ) = grid
  have hstep : (10 : ℚ) ^ grid * 10 ^ 16 ≤ Magnitude.value k := by
    rw [← zpow_natCast, ← zpow_add₀ (by norm_num), ← hgrid, sub_add_cancel]
    exact hlow
  have hunit : (0 : ℚ) < 10 ^ grid := by positivity
  have hround : |Magnitude.value k / 10 ^ grid - roundRat (Magnitude.value k / 10 ^ grid)| ≤
      1 / 2 :=
    (abs_sub_roundRat (div_nonneg (Magnitude.value_nonneg k) hunit.le)).elim le_of_lt
      fun h => h.1.le
  refine ⟨roundRat (Magnitude.value k / 10 ^ grid), ?_⟩
  rw [magnitude_eq_ofRat]
  refine Magnitude.ofRat_eq_of_abs_sub_lt (value_nonneg _) hk ?_
  calc |value ⟨roundRat (Magnitude.value k / 10 ^ grid), grid⟩ - Magnitude.value k|
      = |Magnitude.value k / 10 ^ grid - roundRat (Magnitude.value k / 10 ^ grid)| *
          10 ^ grid := by
        rw [abs_sub_comm, value, abs_sub_mul hunit]
    _ ≤ 1 / 2 * 10 ^ grid := by gcongr
    _ < Magnitude.value k / 2 ^ 54 := by
        rw [lt_div_iff₀ (by positivity)]
        linarith

/-- The shortest digits are found on the first grid that has any. -/
theorem shortest_eq (hk : k < Magnitude.infinity) (hne : k ≠ 0) : ∃ (i : ℕ) (d : Decimal),
    onGrid? tie k (leadingExponent k - i) = some d ∧
      (∀ j < i, onGrid? tie k (leadingExponent k - j) = none) ∧
        shortest tie k = normalized d.digits d.exponent := by
  unfold shortest
  dsimp only
  cases h : (List.range 17).findSome? fun i : ℕ => onGrid? tie k (leadingExponent k - i) with
  | none =>
    obtain ⟨n, hn⟩ := exists_seventeen hk hne
    have hnone := List.findSome?_eq_none_iff.mp h 16 (by simp)
    obtain ⟨d, hd, -⟩ := exists_onGrid? hk hn
    rw [hd] at hnone
    cases hnone
  | some d =>
    obtain ⟨i, hi, hbefore⟩ := findSome?_range_eq_some h
    exact ⟨i, d, hi, hbefore, rfl⟩

theorem digits_normalized_le (digits : ℕ) (exponent : ℤ) :
    (normalized digits exponent).digits ≤ digits := by
  induction digits using Nat.strong_induction_on generalizing exponent with
  | _ digits ih =>
    rw [normalized]
    split
    · exact (ih (digits / 10) (by omega) _).trans (Nat.div_le_self _ _)
    · exact le_rfl

/-- Of a power of ten only the first digit is left. -/
theorem width_normalized_le {m digits : ℕ} (h : digits ≤ 10 ^ (m + 1)) (exponent : ℤ) :
    width (normalized digits exponent).digits ≤ m + 1 := by
  refine (Nat.length_toDigits_le_iff (by decide) (Nat.succ_pos m)).mpr ?_
  rcases h.eq_or_lt with rfl | hlt
  · rw [normalized, if_pos ⟨Nat.pow_pos (by decide), by rw [Nat.pow_succ, Nat.mul_mod_left]⟩]
    refine (digits_normalized_le _ _).trans_lt ?_
    rw [Nat.pow_succ, Nat.mul_div_cancel _ (by decide)]
    have hpos : 0 < 10 ^ m := Nat.pow_pos (by decide)
    omega
  · exact (digits_normalized_le _ _).trans_lt hlt

/-- On a grid with some places behind its first digit a magnitude has one digit more. -/
theorem floor_div_lt (hne : k ≠ 0) (i : ℕ) :
    ⌊Magnitude.value k / 10 ^ (leadingExponent k - i)⌋₊ < 10 ^ (i + 1) := by
  obtain ⟨-, hhigh⟩ := leadingExponent_bounds hne
  have hunit : (0 : ℚ) < 10 ^ (leadingExponent k - i) := by positivity
  rw [Nat.floor_lt (div_nonneg (Magnitude.value_nonneg k) hunit.le), div_lt_iff₀ hunit]
  refine hhigh.trans_eq ?_
  push_cast
  rw [← zpow_natCast, ← zpow_add₀ (by norm_num)]
  congr 1
  push_cast
  ring

theorem digits_le_of_onGrid? (hne : k ≠ 0) {i : ℕ} {s : Decimal}
    (h : onGrid? tie k (leadingExponent k - i) = some s) : s.digits ≤ 10 ^ (i + 1) := by
  have hlt := floor_div_lt hne i
  rcases eq_of_onGrid? h with rfl | rfl
  · exact hlt.le
  · exact hlt

/-- Seventeen digits are all that is ever written. -/
theorem width_shortest_le (hk : k < Magnitude.infinity) (hne : k ≠ 0) :
    width (shortest tie k).digits ≤ 17 := by
  obtain ⟨i, s, hs, hbefore, heq⟩ := shortest_eq tie hk hne
  obtain ⟨n, hn⟩ := exists_seventeen hk hne
  obtain ⟨s', hs', -⟩ := @exists_onGrid? tie k _ n hk hn
  have hle : i ≤ 16 := by
    by_contra hlt
    rw [hbefore 16 (not_le.mp hlt)] at hs'
    cases hs'
  rw [heq]
  exact (width_normalized_le (digits_le_of_onGrid? tie hne hs) _).trans (by omega)

/-- No decimal that is read as a magnitude has fewer digits than its shortest one, and none with as
many is nearer. -/
theorem shortest_spec (hk : k < Magnitude.infinity) (hne : k ≠ 0) {d : Decimal}
    (hd : d.magnitude = k) : width (shortest tie k).digits ≤ width d.digits ∧
      (width (shortest tie k).digits = width d.digits →
        Precedes tie (Magnitude.value k) (shortest tie k).value d.value) := by
  obtain ⟨i, s, hs, hbefore, heq⟩ := shortest_eq tie hk hne
  obtain ⟨j, hj, n, hn, hprecedes⟩ := exists_onGrid tie hk hne hd
  obtain ⟨s', hs', hfirst⟩ := exists_onGrid? hk hn
  have hle : i ≤ j := by
    by_contra hlt
    rw [hbefore j (not_le.mp hlt)] at hs'
    cases hs'
  have hwidth : width (shortest tie k).digits ≤ i + 1 := by
    rw [heq]
    exact width_normalized_le (digits_le_of_onGrid? tie hne hs) _
  refine ⟨by omega, fun hsame => ?_⟩
  obtain rfl : i = j := by omega
  obtain rfl : s = s' := Option.some.inj (hs.symm.trans hs')
  rw [heq, value_normalized]
  exact hfirst.trans hprecedes

end

theorem isWhole_of_value_eq_natCast {k n : ℕ} (hk : k < Magnitude.infinity) {d : Decimal}
    (hd : d.magnitude = k) (hn : d.value = n) : Magnitude.isWhole k = true := by
  rw [magnitude_eq_ofRat, hn] at hd
  rw [← hd] at hk ⊢
  exact Magnitude.isWhole_ofRat_natCast hk

/-- The shortest digits of what is not whole have some of their places behind the point. -/
theorem exponent_shortest_neg (tie : Tie) {k : ℕ} (hk : k < Magnitude.infinity)
    (h : Magnitude.isWhole k = false) : (shortest tie k).exponent < 0 := by
  by_contra hge
  obtain ⟨e, he⟩ := Int.eq_ofNat_of_zero_le (not_lt.mp hge)
  have hvalue : (shortest tie k).value = ((shortest tie k).digits * 10 ^ e : ℕ) := by
    rw [value, he, zpow_natCast]
    push_cast
    rfl
  rw [isWhole_of_value_eq_natCast hk (magnitude_shortest tie hk) hvalue] at h
  cases h

end CircuitQir.Decimal
