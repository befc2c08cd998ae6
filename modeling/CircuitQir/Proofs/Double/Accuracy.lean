import CircuitQir.Proofs.Double.Stepwise
/-!
# How far a decimal read step by step is off

Rounding changes a number by a factor that is hardly more than one (`Magnitude.within_ofRat`), and
where numbers are multiplied or divided, their factors multiply (`Within`). So what the steps of
`Decimal.stepwise?` come to is the decimal up to the product of a few such factors. Magnitudes grow
by at least one part in `2 ^ 53` from one to the next, which makes such a factor a difference of a
few magnitudes: of three at most (`Decimal.close_stepwise?`).

Numbers next to zero have fewer digits, and rounding changes them by more. There a difference in
units decides, not a factor: it is less than three units all the same.
-/

namespace CircuitQir

/-- Each of two numbers is at most `f` times the other. -/
structure Within (f x y : ℚ) : Prop where
  le : x ≤ f * y
  ge : y ≤ f * x

namespace Within

variable {f g x x' y y' : ℚ}

theorem of_eq (h : x = y) : Within 1 x y :=
  ⟨by rw [h, one_mul], by rw [h, one_mul]⟩

theorem mono (h : Within f x y) (hle : f ≤ g) (hx : 0 ≤ x) (hy : 0 ≤ y) : Within g x y :=
  ⟨h.le.trans (mul_le_mul_of_nonneg_right hle hy), h.ge.trans (mul_le_mul_of_nonneg_right hle hx)⟩

theorem trans (hf : 0 ≤ f) (hg : 0 ≤ g) {z : ℚ} (h : Within f x y) (h' : Within g y z) :
    Within (f * g) x z where
  le := by
    rw [mul_assoc]
    exact h.le.trans (mul_le_mul_of_nonneg_left h'.le hf)
  ge := by
    rw [mul_comm f, mul_assoc]
    exact h'.ge.trans (mul_le_mul_of_nonneg_left h.ge hg)

theorem mul (hx : 0 ≤ x) (hx' : 0 ≤ x') (hy : 0 ≤ y) (hy' : 0 ≤ y') (h : Within f x y)
    (h' : Within g x' y') : Within (f * g) (x * x') (y * y') where
  le := by
    rw [mul_mul_mul_comm]
    exact mul_le_mul h.le h'.le hx' (hx.trans h.le)
  ge := by
    rw [mul_mul_mul_comm]
    exact mul_le_mul h.ge h'.ge hy' (hy.trans h.ge)

theorem inv (hx : 0 < x) (hy : 0 < y) (h : Within f x y) : Within f x⁻¹ y⁻¹ where
  le := by
    rw [← div_eq_mul_inv, inv_eq_one_div, div_le_div_iff₀ hx hy, one_mul]
    exact h.ge
  ge := by
    rw [← div_eq_mul_inv, inv_eq_one_div, div_le_div_iff₀ hy hx, one_mul]
    exact h.le

theorem div (hx : 0 ≤ x) (hx' : 0 < x') (hy : 0 ≤ y) (hy' : 0 < y') (h : Within f x y)
    (h' : Within g x' y') : Within (f * g) (x / x') (y / y') := by
  rw [div_eq_mul_inv, div_eq_mul_inv]
  exact h.mul hx (inv_nonneg.mpr hx'.le) hy (inv_nonneg.mpr hy'.le) (h'.inv hx' hy')

end Within

namespace Magnitude

variable {k : ℕ} {q x y : ℚ}

/-! ## One rounding -/

/-- A number that has `n + 1` binary digits in its unit is changed by at most one part in
`2 ^ (n + 1)`. -/
theorem within_ofRat {n : ℕ} (hn : n ≤ 52) (hlow : 2 ^ ((n : ℤ) - 1074) ≤ q)
    (hhigh : q < 2 ^ 1024) : Within (1 + 1 / 2 ^ (n + 1)) (value (ofRat q)) q := by
  have hq : 0 < q := lt_of_lt_of_le (by positivity) hlow
  have hunit : (0 : ℚ) < 2 ^ roundingExponent q := by positivity
  have hfilled : 2 ^ n * 2 ^ roundingExponent q ≤ q := by
    rcases (roundingExponent_bounds hq).2.2 with hle | heq
    · exact (mul_le_mul_of_nonneg_right (pow_le_pow_right₀ one_le_two hn) hunit.le).trans hle
    · rw [heq, ← zpow_natCast, ← zpow_add₀ two_ne_zero]
      exact hlow
  rw [value_ofRat hq hhigh]
  generalize (2 : ℚ) ^ roundingExponent q = unit at hunit hfilled
  have hpow : (0 : ℚ) < 2 ^ n := by positivity
  have hmantissa : 2 ^ n ≤ roundRat (q / unit) := by
    refine le_roundRat ?_
    rw [le_div_iff₀ hunit]
    exact_mod_cast hfilled
  have hrounded : 2 ^ n * unit ≤ roundRat (q / unit) * unit :=
    mul_le_mul_of_nonneg_right (by exact_mod_cast hmantissa) hunit.le
  have herror : |q - roundRat (q / unit) * unit| ≤ 1 / 2 * unit := by
    rw [abs_sub_mul hunit]
    refine mul_le_mul_of_nonneg_right ?_ hunit.le
    exact (abs_sub_roundRat (div_nonneg hq.le hunit.le)).elim le_of_lt fun h => h.1.le
  have hhalf {z : ℚ} (hz : 2 ^ n * unit ≤ z) : 1 / 2 * unit ≤ 1 / 2 ^ (n + 1) * z :=
    calc 1 / 2 * unit = 1 / 2 ^ (n + 1) * (2 ^ n * unit) := by
          rw [pow_succ]
          field_simp
      _ ≤ 1 / 2 ^ (n + 1) * z := mul_le_mul_of_nonneg_left hz (by positivity)
  rw [abs_le] at herror
  constructor
  · rw [one_add_mul]
    linarith [hhalf hfilled]
  · rw [one_add_mul]
    linarith [hhalf hrounded]

theorem exponent_le_exponent {j k : ℕ} (h : j ≤ k) : exponent j ≤ exponent k := by
  unfold exponent
  split <;> split <;> omega

/-- Magnitudes are at least as far apart as those before them. -/
theorem le_value_add (k n : ℕ) : value k + n * 2 ^ exponent k ≤ value (k + n) := by
  induction n with
  | zero => simp
  | succ n ih =>
    have hunit : (2 : ℚ) ^ exponent k ≤ 2 ^ exponent (k + n) :=
      zpow_le_zpow_right₀ one_le_two (exponent_le_exponent (Nat.le_add_right k n))
    rw [← Nat.add_assoc, value_succ]
    push_cast
    linarith

theorem lt_of_ofRat_lt (h : ofRat q < infinity) : q < 2 ^ 1024 :=
  not_le.mp fun hge => h.ne (ofRat_of_large hge)

/-- What is less than half a unit above a magnitude is not rounded to a larger one. -/
theorem ofRat_le_of_lt (hx : 0 ≤ x) (h : x < value k + 1 / 2 * 2 ^ exponent k) : ofRat x ≤ k := by
  rcases le_or_gt infinity k with hge | hk
  · exact (ofRat_le_infinity x).trans hge
  by_contra hgt
  have hnext := value_strictMono.monotone (Nat.lt_of_not_le hgt)
  have hunit : (0 : ℚ) < 2 ^ exponent k := by positivity
  rw [Nat.succ_eq_add_one, value_succ] at hnext
  have hrange : x < 2 ^ 1024 := by
    have hlast := value_strictMono.monotone (Nat.succ_le_of_lt hk)
    rw [Nat.succ_eq_add_one, value_succ, value_infinity] at hlast
    exact (h.trans (by linarith only [hunit])).trans_le hlast
  have hnear : |x - value (ofRat x)| ≤ |x - value k| :=
    (isNearest_ofRat hx hrange k (Nat.lt_of_not_le hgt).ne).elim le_of_lt fun h => h.1.le
  rw [abs_of_neg (by linarith)] at hnear
  rcases abs_cases (x - value k) with ⟨heq, -⟩ | ⟨heq, -⟩ <;> linarith

/-- A number is rounded down by half a unit at most. -/
theorem le_value_ofRat (hy : 0 ≤ y) (h : ofRat y < infinity) :
    y ≤ value (ofRat y) + 1 / 2 * 2 ^ exponent (ofRat y) := by
  have hnear : |y - value (ofRat y)| ≤ |y - value (ofRat y + 1)| :=
    (isNearest_ofRat hy (lt_of_ofRat_lt h) _ (Nat.succ_ne_self _)).elim le_of_lt fun h => h.1.le
  rw [value_succ] at hnear
  by_contra hgt
  rw [not_le] at hgt
  have hunit : (0 : ℚ) < 2 ^ exponent (ofRat y) := by positivity
  rw [abs_of_pos (by linarith)] at hnear
  rcases abs_cases (y - (value (ofRat y) + 2 ^ exponent (ofRat y))) with ⟨heq, -⟩ | ⟨heq, -⟩ <;>
    linarith

/-! ## Differences of a few units -/

/-- At most three magnitudes apart. -/
def Close (j k : ℕ) : Prop := j ≤ k + 3 ∧ k ≤ j + 3

theorem ofRat_le_add_three (hx : 0 ≤ x) (hy : 0 ≤ y) (hfinite : ofRat y < infinity)
    (h : x < y + 3 * 2 ^ exponent (ofRat y)) : ofRat x ≤ ofRat y + 3 := by
  have hthree := le_value_add (ofRat y) 3
  have hunit : (2 : ℚ) ^ exponent (ofRat y) ≤ 2 ^ exponent (ofRat y + 3) :=
    zpow_le_zpow_right₀ one_le_two (exponent_le_exponent (Nat.le_add_right _ 3))
  refine ofRat_le_of_lt hx ?_
  push_cast at hthree
  linarith [le_value_ofRat hy hfinite]

/-- A number has fewer than `2 ^ 53` of the units that it is rounded in. -/
theorem lt_mul_unit (hy : 0 ≤ y) (h : ofRat y < infinity) :
    y < 2 ^ 53 * 2 ^ exponent (ofRat y) := by
  obtain ⟨-, hm, -⟩ := mantissa_bounds (ofRat y)
  have hunit : (0 : ℚ) < 2 ^ exponent (ofRat y) := by positivity
  have hmantissa : (mantissa (ofRat y) + 1 : ℚ) ≤ 2 ^ 53 := by exact_mod_cast hm
  have hvalue : value (ofRat y) + 2 ^ exponent (ofRat y) ≤ 2 ^ 53 * 2 ^ exponent (ofRat y) := by
    rw [value, ← add_one_mul]
    exact mul_le_mul_of_nonneg_right hmantissa hunit.le
  linarith [le_value_ofRat hy h]

theorem close_of_within (hx : 0 ≤ x) (hy : 0 ≤ y) (hfx : ofRat x < infinity)
    (hfy : ofRat y < infinity) (h : Within (1 + 3 / 2 ^ 53) x y) : Close (ofRat x) (ofRat y) := by
  have hle {x y : ℚ} (hx : 0 ≤ x) (hy : 0 ≤ y) (hfy : ofRat y < infinity)
      (h : x ≤ (1 + 3 / 2 ^ 53) * y) : ofRat x ≤ ofRat y + 3 := by
    refine ofRat_le_add_three hx hy hfy ?_
    linarith [lt_mul_unit hy hfy]
  exact ⟨hle hx hy hfy h.le, hle hy hx hfx h.ge⟩

/-- For numbers that are at most half the smallest with all digits a larger factor will do. -/
theorem close_of_within_of_small (hx : 0 ≤ x) (hy : 0 ≤ y) (hxs : x < 2 ^ (-1023 : ℤ))
    (hys : y < 2 ^ (-1023 : ℤ)) (h : Within (1 + 12 / 2 ^ 53) x y) :
    Close (ofRat x) (ofRat y) := by
  have hle {x y : ℚ} (hx : 0 ≤ x) (hy : 0 ≤ y) (hys : y < 2 ^ (-1023 : ℤ))
      (h : x ≤ (1 + 12 / 2 ^ 53) * y) : ofRat x ≤ ofRat y + 3 := by
    have hunits : (2 : ℚ) ^ (-1023 : ℤ) = (2 ^ 51 : ℕ) * 2 ^ (-1074 : ℤ) := by
      rw [Nat.cast_pow, Nat.cast_ofNat, ← zpow_natCast, ← zpow_add₀ two_ne_zero]
      rfl
    have hfinite : ofRat y < infinity := by
      refine (ofRat_mono hy hys.le).trans_lt ?_
      rw [hunits, ofRat_mantissa (by decide) (by decide) (.inr rfl)]
      decide
    refine ofRat_le_add_three hx hy hfinite ?_
    have hunit : (2 : ℚ) ^ (-1074 : ℤ) ≤ 2 ^ exponent (ofRat y) :=
      zpow_le_zpow_right₀ one_le_two (mantissa_bounds _).1
    rw [hunits, Nat.cast_pow, Nat.cast_ofNat] at hys
    linarith
  exact ⟨hle hx hy hys h.le, hle hy hx hxs h.ge⟩

/-! ## Digits and a power of ten -/

section

variable {n e : ℕ}

theorem within_natCast {a : ℕ} (ha : a ≤ 1024) (hn : n ≠ 0) (hlt : n < 2 ^ a) :
    Within (1 + 1 / 2 ^ 53) (value (nearest n 1)) n := by
  have hone : (1 : ℚ) ≤ n := Nat.one_le_cast.mpr (Nat.pos_of_ne_zero hn)
  have hpow : (n : ℚ) < 2 ^ a := by exact_mod_cast hlt
  rw [nearest_one]
  refine within_ofRat le_rfl (le_trans ?_ hone) (hpow.trans_le (pow_le_pow_right₀ one_le_two ha))
  exact zpow_le_one_of_nonpos₀ one_le_two (by decide)

theorem within_digits (hn : n ≠ 0) (hdigits : n ≤ 10 ^ 17) :
    Within (1 + 1 / 2 ^ 53) (value (nearest n 1)) n :=
  within_natCast (a := 57) (by decide) hn (hdigits.trans_lt (by decide))

theorem within_powerOfTen (he : e ≤ 308) :
    Within (1 + 1 / 2 ^ 53) (value (powerOfTen e)) (10 ^ e) := by
  have hlt : ∀ e < 309, 10 ^ e < 2 ^ 1024 := by decide +kernel
  have hwithin : Within _ (value (powerOfTen e)) (10 ^ e : ℕ) :=
    within_natCast le_rfl (Nat.pow_pos (by decide)).ne' (hlt e (Nat.lt_succ_of_le he))
  rwa [Nat.cast_pow, Nat.cast_ofNat] at hwithin

theorem value_powerOfTen_pos (e : ℕ) : 0 < value (powerOfTen e) :=
  value_pos (powerOfTen_ne_zero e)

theorem nearest_digits_lt (hdigits : n ≤ 10 ^ 17) : nearest n 1 < infinity :=
  (nearest_le_nearest hdigits).trans_lt (by decide)

theorem close_times (hn : n ≠ 0) (hdigits : n ≤ 10 ^ 17) (he : e ≤ 308)
    (hfinite : times (nearest n 1) (powerOfTen e) < infinity)
    (hfinite' : ofRat (n * 10 ^ e) < infinity) :
    Close (times (nearest n 1) (powerOfTen e)) (ofRat (n * 10 ^ e)) := by
  have hwithin := (within_digits hn hdigits).mul (value_nonneg _) (value_nonneg _) n.cast_nonneg
    (by positivity) (within_powerOfTen he)
  have hnonneg := mul_nonneg (value_nonneg (nearest n 1)) (value_nonneg (powerOfTen e))
  rw [times_eq_ofRat] at hfinite ⊢
  refine close_of_within hnonneg (by positivity) hfinite hfinite' ?_
  exact hwithin.mono (by norm_num) hnonneg (by positivity)

theorem within_div (hn : n ≠ 0) (hdigits : n ≤ 10 ^ 17) {f : ℚ}
    (h : Within f (value (powerOfTen e)) (10 ^ e)) :
    Within ((1 + 1 / 2 ^ 53) * f) (value (nearest n 1) / value (powerOfTen e)) (n / 10 ^ e) :=
  (within_digits hn hdigits).div (value_nonneg _) (value_powerOfTen_pos e) n.cast_nonneg
    (by positivity) h

theorem ofRat_div_lt (hdigits : n ≤ 10 ^ 17) {p : ℚ} (hp : 1 ≤ p) : ofRat (n / p) < infinity := by
  have hle : ofRat (n / p) ≤ ofRat n :=
    ofRat_mono (by positivity) (div_le_self n.cast_nonneg hp)
  rw [← nearest_one] at hle
  exact hle.trans_lt (nearest_digits_lt hdigits)

theorem close_quotient_of_within {f : ℚ} (hk : k < infinity) (hy : 0 ≤ y)
    (hfinite : ofRat y < infinity) (hf : f ≤ 1 + 3 / 2 ^ 53)
    (h : Within f (value k / value (powerOfTen e)) y) :
    Close (quotient k (powerOfTen e)) (ofRat y) := by
  have hquotient := quotient_powerOfTen_lt hk e
  have hnonneg := div_nonneg (value_nonneg k) (value_nonneg (powerOfTen e))
  rw [quotient_eq_ofRat _ (powerOfTen_ne_zero e)] at hquotient ⊢
  exact close_of_within hnonneg hy hquotient hfinite (h.mono hf hnonneg hy)

theorem close_quotient (hn : n ≠ 0) (hdigits : n ≤ 10 ^ 17) (he : e ≤ 308) :
    Close (quotient (nearest n 1) (powerOfTen e)) (ofRat (n / 10 ^ e)) :=
  close_quotient_of_within (nearest_digits_lt hdigits) (by positivity)
    (ofRat_div_lt hdigits (one_le_pow₀ (by norm_num))) (by norm_num)
    (within_div hn hdigits (within_powerOfTen he))

/-! ## The last power of ten first -/

/-- How good a power is, in whole numbers. -/
theorem within_powerOfTen_of_le {t : ℕ}
    (hle : 2 ^ t * numerator (powerOfTen e) ≤ (2 ^ t + 1) * (10 ^ e * denominator (powerOfTen e)))
    (hge : 2 ^ t * (10 ^ e * denominator (powerOfTen e)) ≤ (2 ^ t + 1) * numerator (powerOfTen e)) :
    Within (1 + 1 / 2 ^ t) (value (powerOfTen e)) (10 ^ e) := by
  have hpow : (0 : ℚ) < 2 ^ t := by positivity
  have hden : (0 : ℚ) < denominator (powerOfTen e) := Nat.cast_pos.mpr (denominator_pos _)
  have hle : (2 : ℚ) ^ t * numerator (powerOfTen e) ≤
      (2 ^ t + 1) * (10 ^ e * denominator (powerOfTen e)) := by exact_mod_cast hle
  have hge : (2 : ℚ) ^ t * (10 ^ e * denominator (powerOfTen e)) ≤
      (2 ^ t + 1) * numerator (powerOfTen e) := by exact_mod_cast hge
  rw [one_add_div hpow.ne', value_eq_div]
  constructor
  · rw [div_mul_eq_mul_div, div_le_div_iff₀ hden hpow]
    linarith
  · rw [div_mul_div_comm, le_div_iff₀ (by positivity)]
    linarith

/-- The last of the powers is a rather good one. -/
theorem within_lastPower : Within (1 + 1 / 2 ^ 54) (value (powerOfTen 308)) (10 ^ 308) :=
  within_powerOfTen_of_le (by decide +kernel) (by decide +kernel)

/-- Numbers of so many digits are not too near zero when the last power divides them. -/
theorem two_zpow_le_div {m t : ℕ} (hm : m < 2 ^ 53) (hle : m ≤ n)
    (h : 2 * 10 ^ e ≤ m * 2 ^ t) (he : e ≤ 308) :
    (2 : ℚ) ^ (-(t : ℤ)) ≤ value (nearest n 1) / value (powerOfTen e) := by
  have hpow : (2 * 10 ^ e : ℚ) ≤ m * 2 ^ t := by exact_mod_cast h
  rw [zpow_neg, zpow_natCast, inv_eq_one_div, div_le_div_iff₀ (by positivity)
    (value_powerOfTen_pos _), one_mul]
  calc value (powerOfTen e) ≤ (1 + 1 / 2 ^ 53) * 10 ^ e := (within_powerOfTen he).le
    _ ≤ 2 * 10 ^ e := mul_le_mul_of_nonneg_right (by norm_num) (by positivity)
    _ ≤ m * 2 ^ t := hpow
    _ ≤ value (nearest n 1) * 2 ^ t :=
      mul_le_mul_of_nonneg_right (le_value_nearest hm hle) (by positivity)

theorem div_powerOfTen_lt (hdigits : n ≤ 10 ^ 17) (e : ℕ) :
    value (nearest n 1) / value (powerOfTen e) < 2 ^ 1024 := by
  rw [← value_infinity]
  exact (div_le_self (value_nonneg _) (one_le_value_powerOfTen e)).trans_lt
    (value_strictMono (nearest_digits_lt hdigits))

/-- Divided by the last power first, digits are off by the factors of both roundings. -/
theorem within_first {t : ℕ} (ht : t ≤ 52) (hn : n ≠ 0) (hdigits : n ≤ 10 ^ 17)
    (hlow : (2 : ℚ) ^ ((t : ℤ) - 1074) ≤ value (nearest n 1) / value (powerOfTen 308)) :
    Within ((1 + 1 / 2 ^ (t + 1)) * ((1 + 1 / 2 ^ 53) * (1 + 1 / 2 ^ 54)))
      (value (quotient (nearest n 1) (powerOfTen 308))) (n / 10 ^ 308) := by
  rw [quotient_eq_ofRat _ (powerOfTen_ne_zero 308)]
  exact (within_ofRat ht hlow (div_powerOfTen_lt hdigits 308)).trans (by positivity)
    (by positivity) (within_div hn hdigits within_lastPower)

/-- Two divisions, if the second leaves something in front of the point. Its power of ten is a
double itself then. -/
theorem close_quotient_quotient_of_lt (hn : 10 ^ e < n) (hdigits : n ≤ 10 ^ 17) (he : e ≠ 0) :
    Close (quotient (quotient (nearest n 1) (powerOfTen 308)) (powerOfTen e))
      (ofRat (n / 10 ^ 308 / 10 ^ e)) := by
  have hten : 10 ≤ n := (Nat.le_self_pow he 10).trans hn.le
  have hlt : e < 17 := (Nat.pow_lt_pow_iff_right (by decide)).mp (hn.trans_le hdigits)
  have hlow : (2 : ℚ) ^ (-(1022 : ℕ) : ℤ) ≤ value (nearest n 1) / value (powerOfTen 308) :=
    two_zpow_le_div (m := 10) (by decide) hten (by decide +kernel) le_rfl
  have hfirst := within_first (t := 52) le_rfl (by omega) hdigits hlow
  have hwithin := hfirst.div (value_nonneg _) (value_powerOfTen_pos e) (by positivity)
    (by positivity) (Within.of_eq (value_powerOfTen (by omega)))
  have hfinite : ofRat (n / 10 ^ 308 / 10 ^ e) < infinity := by
    rw [div_div, ← pow_add]
    exact ofRat_div_lt hdigits (one_le_pow₀ (by norm_num))
  exact close_quotient_of_within (quotient_powerOfTen_lt (nearest_digits_lt hdigits) 308)
    (by positivity) hfinite (by norm_num) hwithin

theorem div_lt_two_zpow {t : ℕ} (h : (2 ^ 53 + 12) * 2 ^ t < 2 ^ 53 * 10 ^ e) :
    (1 + 12 / 2 ^ 53) / 10 ^ e < (2 : ℚ) ^ (-(t : ℤ)) := by
  have hpow : ((2 ^ 53 + 12) * 2 ^ t : ℚ) < 2 ^ 53 * 10 ^ e := by exact_mod_cast h
  rw [zpow_neg, zpow_natCast, inv_eq_one_div, div_lt_div_iff₀ (by positivity) (by positivity)]
  linarith

/-- Two divisions, if the second leaves one at most. What is left in the end is next to zero. -/
theorem close_quotient_quotient_of_le (hn : n ≠ 0) (hle : n ≤ 10 ^ e) (hdigits : n ≤ 10 ^ 17)
    (he : e ≤ 308) :
    Close (quotient (quotient (nearest n 1) (powerOfTen 308)) (powerOfTen e))
      (ofRat (n / 10 ^ 308 / 10 ^ e)) := by
  have hlow : (2 : ℚ) ^ (-(1025 : ℕ) : ℤ) ≤ value (nearest n 1) / value (powerOfTen 308) :=
    two_zpow_le_div (m := 1) (by decide) (Nat.pos_of_ne_zero hn) (by decide +kernel) le_rfl
  have hfirst := within_first (t := 49) (by decide) hn hdigits hlow
  have hnonneg := div_nonneg (value_nonneg (quotient (nearest n 1) (powerOfTen 308)))
    (value_nonneg (powerOfTen e))
  have hwithin : Within (1 + 12 / 2 ^ 53)
      (value (quotient (nearest n 1) (powerOfTen 308)) / value (powerOfTen e))
      (n / 10 ^ 308 / 10 ^ e) :=
    (hfirst.div (value_nonneg _) (value_powerOfTen_pos e) (by positivity) (by positivity)
      (within_powerOfTen he)).mono (by norm_num) hnonneg (by positivity)
  have hone : (n / 10 ^ 308 / 10 ^ e : ℚ) ≤ 1 / 10 ^ 308 := by
    have hle : (n : ℚ) ≤ 10 ^ e := by exact_mod_cast hle
    rw [div_right_comm]
    exact div_le_div_of_nonneg_right (div_le_one_of_le₀ hle (by positivity)) (by positivity)
  have hsmall : (1 + 12 / 2 ^ 53) / 10 ^ 308 < (2 : ℚ) ^ (-(1023 : ℕ) : ℤ) :=
    div_lt_two_zpow (by decide +kernel)
  rw [quotient_eq_ofRat _ (powerOfTen_ne_zero e)]
  refine close_of_within_of_small hnonneg (by positivity) (lt_of_le_of_lt ?_ hsmall)
    (lt_of_le_of_lt ?_ hsmall) hwithin
  · refine hwithin.le.trans ((mul_le_mul_of_nonneg_left hone (by norm_num)).trans_eq ?_)
    rw [mul_one_div]
  · exact hone.trans (div_le_div_of_nonneg_right (by norm_num) (by positivity))

end

end Magnitude

namespace Decimal

open Magnitude (infinity Close)

/-- A decimal of few digits that is not rounded to zero does not have too many places. -/
theorem le_exponent {d : Decimal} (hdigits : d.digits ≤ 10 ^ 17) (hne : d.magnitude ≠ 0) :
    -350 ≤ d.exponent := by
  by_contra hlt
  refine hne ?_
  unfold magnitude
  dsimp only
  split
  · rfl
  rename_i hzero
  have hwidth : width d.digits - 1 ≤ 17 := by
    refine (Nat.pow_le_pow_iff_right (a := 10) (by decide)).mp ?_
    exact (pow_width_le (Nat.pos_of_ne_zero hzero)).trans hdigits
  rw [if_neg (by omega), if_pos (by omega)]

/-- What a decimal of seventeen digits comes to step by step is at most three magnitudes away from
the nearest one. -/
theorem close_stepwise? {d : Decimal} (hdigits : d.digits ≤ 10 ^ 17) (hne : d.magnitude ≠ 0)
    (hfinite : d.magnitude < infinity) {k : ℕ} (hk : k < infinity) (h : d.stepwise? = some k) :
    Close k d.magnitude := by
  have hexponent := le_exponent hdigits hne
  obtain ⟨n, e⟩ := d
  have hn : n ≠ 0 := by
    rintro rfl
    exact hne rfl
  rw [magnitude_eq_ofRat, value] at hfinite ⊢
  revert h
  rw [stepwise?]
  dsimp only at hdigits hexponent hfinite ⊢
  fun_cases Magnitude.scale? (Magnitude.nearest n 1) e with
  | case1 => exact fun h => absurd h.symm (Option.some_ne_none k)
  | case2 hbound hnonneg product hproduct =>
    intro h
    obtain rfl : product = k := Option.some.inj h
    obtain ⟨m, rfl⟩ := Int.eq_ofNat_of_zero_le hnonneg
    rw [zpow_natCast] at hfinite ⊢
    exact Magnitude.close_times hn hdigits hbound hk hfinite
  | case3 hbound hneg =>
    intro h
    obtain rfl := Option.some.inj h
    obtain ⟨m, rfl⟩ := Int.exists_eq_neg_ofNat (not_le.mp hneg).le
    rw [zpow_neg, zpow_natCast, ← div_eq_mul_inv, Int.natAbs_neg, Int.natAbs_natCast]
    rw [Int.natAbs_neg, Int.natAbs_natCast] at hbound
    exact Magnitude.close_quotient hn hdigits hbound
  | case4 hbound hzero =>
    have hone := Magnitude.le_value_nearest (m := 1) (by decide) (Nat.pos_of_ne_zero hn)
    rw [hzero, Magnitude.value_zero] at hone
    exact absurd hone (by norm_num)
  | case5 => exact fun h => absurd h.symm (Option.some_ne_none k)
  | case6 hbound hpos hneg =>
    obtain ⟨m, rfl⟩ : ∃ m : ℕ, e = -(308 + m : ℕ) := ⟨(-(e + 308)).toNat, by omega⟩
    have hrest : (-(308 + m : ℕ) + 308 : ℤ) = -m := by push_cast; ring
    rw [hrest, Magnitude.scale?, Int.natAbs_neg, Int.natAbs_natCast, if_pos (by omega),
      if_neg (by omega)]
    intro h
    obtain rfl := Option.some.inj h
    rw [zpow_neg, zpow_natCast, ← div_eq_mul_inv, pow_add, ← div_div]
    rcases le_or_gt n (10 ^ m) with hle | hlt
    · exact Magnitude.close_quotient_quotient_of_le hn hle hdigits (by omega)
    · exact Magnitude.close_quotient_quotient_of_lt hlt hdigits (by omega)

end Decimal

end CircuitQir
