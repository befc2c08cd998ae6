import Mathlib.Data.Int.Log
import Mathlib.Data.Rat.Floor
import Mathlib.Algebra.Order.Field.Power
import Mathlib.Algebra.Order.Floor.Semifield
import Mathlib.Tactic.NormNum
import Mathlib.Tactic.Ring
import Mathlib.Tactic.Positivity
import Mathlib.Tactic.Linarith
import Mathlib.Tactic.FieldSimp
import CircuitQir.Double.Decimal
/-!
# Rounding as a function of the number

`Magnitude.nearest` is given a quotient of naturals, but what it returns depends on the rational
number alone: it is `Magnitude.ofRat` of that number (`nearest_eq_ofRat`). A finite magnitude is
what its own value is rounded to (`ofRat_value`), so however a value is spelled, it comes back.
-/

namespace CircuitQir

/-- The natural number nearest to a rational that is not negative, ties going to the even
neighbour. -/
def roundRat (q : ℚ) : ℕ :=
  if 2 * (q - ⌊q⌋₊) < 1 then ⌊q⌋₊
  else if 1 < 2 * (q - ⌊q⌋₊) then ⌊q⌋₊ + 1
  else ⌊q⌋₊ + ⌊q⌋₊ % 2

theorem roundHalfEven_eq_roundRat (num : ℕ) {den : ℕ} (hden : 0 < den) :
    roundHalfEven num den = roundRat ((num : ℚ) / den) := by
  have hpos : (0 : ℚ) < den := by exact_mod_cast hden
  have hrest : (num : ℚ) / den - (num / den : ℕ) = (num % den : ℕ) / den := by
    rw [sub_eq_iff_eq_add, eq_comm, div_add' _ _ _ hpos.ne', div_left_inj' hpos.ne']
    exact_mod_cast Nat.mod_add_div' num den
  have hbelow : 2 * (num % den) < den ↔ 2 * (((num % den : ℕ) : ℚ) / den) < 1 := by
    rw [← mul_div_assoc, div_lt_one hpos]
    exact_mod_cast Iff.rfl
  have habove : den < 2 * (num % den) ↔ 1 < 2 * (((num % den : ℕ) : ℚ) / den) := by
    rw [← mul_div_assoc, one_lt_div hpos]
    exact_mod_cast Iff.rfl
  simp only [roundHalfEven, roundRat, Nat.floor_div_eq_div, hrest, hbelow, habove]

theorem roundRat_natCast (n : ℕ) : roundRat (n : ℚ) = n := by
  simp [roundRat]

namespace Magnitude

/-- The value of a finite magnitude. -/
def value (k : ℕ) : ℚ := mantissa k * 2 ^ exponent k

/-- The magnitude nearest to a rational that is not negative. -/
def ofRat (q : ℚ) : ℕ :=
  if q = 0 then 0
  else
    let e := max (-1074) (Int.log 2 q - 52)
    min infinity ((e + 1074).toNat * 2 ^ 52 + roundRat (q / 2 ^ e))

/-! ## Units -/

theorem two_zpow_eq (e : ℤ) : (2 : ℚ) ^ e = 2 ^ e.toNat / 2 ^ (-e).toNat := by
  rcases le_total 0 e with he | he
  · rw [Int.toNat_of_nonpos (by omega : -e ≤ 0), pow_zero, div_one, ← zpow_natCast,
      Int.toNat_of_nonneg he]
  · rw [Int.toNat_of_nonpos he, pow_zero, one_div, ← zpow_natCast, ← zpow_neg,
      Int.toNat_of_nonneg (by omega), neg_neg]

theorem scaled_div (num den : ℕ) (e : ℤ) :
    ((scaled num den e).1 : ℚ) / (scaled num den e).2 = (num : ℚ) / den / 2 ^ e := by
  rw [scaled, two_zpow_eq]
  push_cast
  field_simp

theorem scaled_pos {den : ℕ} (num : ℕ) (hden : 0 < den) (e : ℤ) : 0 < (scaled num den e).2 :=
  Nat.mul_pos hden (Nat.pow_pos (by decide))

/-- A quotient has about as many binary digits as its parts have more or less. -/
theorem log2_bounds {num den : ℕ} (hnum : 0 < num) (hden : 0 < den) :
    (2 : ℚ) ^ ((num.log2 : ℤ) - den.log2 - 1) < (num : ℚ) / den ∧
      (num : ℚ) / den < 2 ^ ((num.log2 : ℤ) - den.log2 + 1) := by
  have hpos : (0 : ℚ) < den := by exact_mod_cast hden
  have hnl : (2 : ℚ) ^ num.log2 ≤ num := by exact_mod_cast Nat.log2_self_le hnum.ne'
  have hnu : (num : ℚ) < 2 ^ (num.log2 + 1) := by exact_mod_cast Nat.lt_log2_self
  have hdl : (2 : ℚ) ^ den.log2 ≤ den := by exact_mod_cast Nat.log2_self_le hden.ne'
  have hdu : (den : ℚ) < 2 ^ (den.log2 + 1) := by exact_mod_cast Nat.lt_log2_self
  constructor
  · rw [lt_div_iff₀ hpos]
    calc (2 : ℚ) ^ ((num.log2 : ℤ) - den.log2 - 1) * den
        < 2 ^ ((num.log2 : ℤ) - den.log2 - 1) * 2 ^ (den.log2 + 1) := by gcongr
      _ = 2 ^ num.log2 := by
        rw [← zpow_natCast, ← zpow_natCast, ← zpow_add₀ (by norm_num)]
        congr 1
        push_cast
        ring
      _ ≤ num := hnl
  · rw [div_lt_iff₀ hpos]
    calc (num : ℚ) < 2 ^ (num.log2 + 1) := hnu
      _ = 2 ^ ((num.log2 : ℤ) - den.log2 + 1) * 2 ^ den.log2 := by
        rw [← zpow_natCast, ← zpow_natCast, ← zpow_add₀ (by norm_num)]
        congr 1
        push_cast
        ring
      _ ≤ 2 ^ ((num.log2 : ℤ) - den.log2 + 1) * den := by gcongr

/-- Numbers between two powers of two have the logarithm of the lower. -/
theorem log_eq_of_bounds {q : ℚ} {e : ℤ} (hl : (2 : ℚ) ^ e ≤ q) (hu : q < 2 ^ (e + 1)) :
    Int.log 2 q = e := by
  have hq : 0 < q := lt_of_lt_of_le (by positivity) hl
  have h₁ := (Int.zpow_le_iff_le_log (by decide : 1 < 2) hq).mp (by exact_mod_cast hl)
  have h₂ := (Int.lt_zpow_iff_log_lt (by decide : 1 < 2) hq).mp (by exact_mod_cast hu)
  omega

/-- The unit of the result has 53 digits of the number before the point. -/
theorem unitExponent_eq {num den : ℕ} (hnum : 0 < num) (hden : 0 < den) :
    unitExponent num den = max (-1074) (Int.log 2 ((num : ℚ) / den) - 52) := by
  obtain ⟨hl, hu⟩ := log2_bounds hnum hden
  obtain ⟨e, he⟩ : ∃ e : ℤ, (num.log2 : ℤ) - den.log2 = e + 52 := ⟨_, (sub_add_cancel _ 52).symm⟩
  rw [he] at hl hu
  have hpos : (0 : ℚ) < (scaled num den e).2 := by exact_mod_cast scaled_pos num hden e
  have hfloor : (scaled num den e).1 / (scaled num den e).2 < 2 ^ 52 ↔
      (num : ℚ) / den < 2 ^ (e + 52) := by
    rw [Nat.div_lt_iff_lt_mul (scaled_pos num hden e), zpow_add₀ two_ne_zero,
      ← div_lt_iff₀' (by positivity), ← scaled_div, div_lt_iff₀ hpos]
    exact_mod_cast Iff.rfl
  unfold unitExponent
  dsimp only
  rw [he, add_sub_cancel_right]
  split
  · rename_i hlt
    have hlog : Int.log 2 ((num : ℚ) / den) = e + 51 :=
      log_eq_of_bounds (by rw [show e + 51 = e + 52 - 1 by omega]; exact hl.le)
        (by rw [show e + 51 + 1 = e + 52 by omega]; exact hfloor.mp hlt)
    rw [hlog]
    congr 1
    omega
  · rename_i hge
    have hlog : Int.log 2 ((num : ℚ) / den) = e + 52 :=
      log_eq_of_bounds (not_lt.mp (mt hfloor.mpr hge)) hu
    rw [hlog]
    congr 1
    omega

/-- Rounding a quotient is rounding the number it stands for. -/
theorem nearest_eq_ofRat (num : ℕ) {den : ℕ} (hden : 0 < den) :
    nearest num den = ofRat ((num : ℚ) / den) := by
  have hpos : (0 : ℚ) < den := by exact_mod_cast hden
  unfold nearest ofRat
  by_cases hnum : num = 0
  · simp [hnum]
  · have hne : (num : ℚ) / den ≠ 0 := by
      simp [hnum, hden.ne']
    rw [if_neg hnum, if_neg hne]
    dsimp only
    rw [roundHalfEven_eq_roundRat _ (scaled_pos num hden _), scaled_div,
      unitExponent_eq (Nat.pos_of_ne_zero hnum) hden]

/-! ## Exact numbers -/

/-- A mantissa that fills its unit, or any in the least unit, is kept. -/
theorem ofRat_mantissa {m : ℕ} {e : ℤ} (he : -1074 ≤ e) (hm : m < 2 ^ 53)
    (hfill : 2 ^ 52 ≤ m ∨ e = -1074) :
    ofRat (m * 2 ^ e) = min infinity ((e + 1074).toNat * 2 ^ 52 + m) := by
  by_cases hzero : m = 0
  · subst hzero
    obtain rfl : e = -1074 := by omega
    simp [ofRat]
  have hpos : (0 : ℚ) < m := by exact_mod_cast Nat.pos_of_ne_zero hzero
  have hunit : (0 : ℚ) < 2 ^ e := by positivity
  have hne : (m : ℚ) * 2 ^ e ≠ 0 := (mul_pos hpos hunit).ne'
  have hu : (m : ℚ) * 2 ^ e < 2 ^ (e + 53) := by
    rw [add_comm e, zpow_add₀ two_ne_zero]
    gcongr
    exact_mod_cast hm
  have hexponent : max (-1074) (Int.log 2 ((m : ℚ) * 2 ^ e) - 52) = e := by
    have hlog := (Int.lt_zpow_iff_log_lt (by decide : 1 < 2) (mul_pos hpos hunit)).mp
      (by exact_mod_cast hu)
    rcases hfill with hfill | rfl
    · have hl : (2 : ℚ) ^ (e + 52) ≤ m * 2 ^ e := by
        rw [add_comm e, zpow_add₀ two_ne_zero]
        gcongr
        exact_mod_cast hfill
      have := (Int.zpow_le_iff_le_log (by decide : 1 < 2) (mul_pos hpos hunit)).mp
        (by exact_mod_cast hl)
      omega
    · omega
  rw [ofRat, if_neg hne]
  dsimp only
  rw [hexponent, mul_div_cancel_right₀ _ hunit.ne', roundRat_natCast]

/-- A finite magnitude is what its own value is rounded to. -/
theorem ofRat_value {k : ℕ} (hk : k < infinity) : ofRat (value k) = k := by
  have hk : k < 2047 * 2 ^ 52 := hk
  unfold value mantissa exponent
  split
  · rename_i hsub
    rw [ofRat_mantissa (by omega) (by omega) (Or.inr rfl)]
    simp only [infinity]
    omega
  · rename_i hnormal
    have hmod := Nat.mod_lt k (show 0 < 2 ^ 52 by decide)
    rw [ofRat_mantissa (by omega) (by omega) (Or.inl (by omega))]
    simp only [infinity]
    omega

theorem value_eq_div (k : ℕ) : value k = (numerator k : ℚ) / denominator k := by
  rw [value, numerator, denominator, two_zpow_eq]
  push_cast
  ring

/-! ## Numbers out of range -/

theorem ofRat_le_infinity (q : ℚ) : ofRat q ≤ infinity := by
  unfold ofRat
  split
  · exact Nat.zero_le _
  · exact min_le_left _ _

theorem le_roundRat {q : ℚ} {n : ℕ} (h : (n : ℚ) ≤ q) : n ≤ roundRat q := by
  have hfloor := Nat.le_floor h
  unfold roundRat
  split
  · exact hfloor
  · split <;> omega

theorem ofRat_of_large {q : ℚ} (h : 2 ^ 1024 ≤ q) : ofRat q = infinity := by
  have hpos : 0 < q := lt_of_lt_of_le (by positivity) h
  have hlog : (1024 : ℤ) ≤ Int.log 2 q :=
    (Int.zpow_le_iff_le_log (by decide : 1 < 2) hpos).mp (by exact_mod_cast h)
  have hl := Int.zpow_log_le_self (b := 2) (by decide) hpos
  have hexponent : max (-1074) (Int.log 2 q - 52) = Int.log 2 q - 52 := by omega
  have hround : 2 ^ 52 ≤ roundRat (q / 2 ^ (Int.log 2 q - 52)) := by
    refine le_roundRat ?_
    rw [le_div_iff₀ (by positivity), Nat.cast_pow, Nat.cast_ofNat, ← zpow_natCast,
      ← zpow_add₀ two_ne_zero]
    simpa using hl
  rw [ofRat, if_neg hpos.ne']
  dsimp only
  rw [hexponent]
  simp only [infinity]
  omega

theorem ofRat_of_small {q : ℚ} (hq : 0 ≤ q) (h : q < 2 ^ (-1075 : ℤ)) : ofRat q = 0 := by
  by_cases hzero : q = 0
  · simp [ofRat, hzero]
  have hpos : 0 < q := lt_of_le_of_ne hq (Ne.symm hzero)
  have hlog : Int.log 2 q < -1075 :=
    (Int.lt_zpow_iff_log_lt (by decide : 1 < 2) hpos).mp (by exact_mod_cast h)
  have hexponent : max (-1074) (Int.log 2 q - 52) = -1074 := by omega
  have hhalf : q / 2 ^ (-1074 : ℤ) < 1 / 2 := by
    rw [div_lt_iff₀ (by positivity)]
    refine lt_of_lt_of_eq h ?_
    rw [one_div, ← zpow_neg_one, ← zpow_add₀ two_ne_zero]
    rfl
  have hfloor : ⌊q / 2 ^ (-1074 : ℤ)⌋₊ = 0 := by
    rw [Nat.floor_eq_zero]
    linarith
  have hround : roundRat (q / 2 ^ (-1074 : ℤ)) = 0 := by
    rw [roundRat, hfloor, if_pos]
    rw [Nat.cast_zero, sub_zero]
    linarith
  rw [ofRat, if_neg hzero]
  dsimp only
  rw [hexponent, hround]
  simp

end Magnitude

end CircuitQir
