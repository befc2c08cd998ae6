import CircuitQir.Proofs.Double.Rounding
/-!
# Decimals read back

Reading a decimal rounds its value, also where the value is settled by the place of its first
digit alone (`magnitude_eq_ofRat`). So the two decimals that a magnitude is written as, its full
expansion and its shortest digits, are read as that magnitude.
-/

namespace CircuitQir.Decimal

/-- The number that a decimal stands for. -/
def value (d : Decimal) : ℚ := d.digits * 10 ^ d.exponent

/-! ## Digits -/

theorem lt_pow_width (n : ℕ) : n < 10 ^ width n :=
  (Nat.length_toDigits_le_iff (by decide) Nat.length_toDigits_pos).mp (Nat.le_refl _)

theorem pow_width_le {n : ℕ} (h : 0 < n) : 10 ^ (width n - 1) ≤ n := by
  by_cases hone : width n - 1 = 0
  · rw [hone]
    exact h
  · by_contra hlt
    have := (Nat.length_toDigits_le_iff (by decide) (Nat.pos_of_ne_zero hone)).mpr
      (Nat.lt_of_not_le hlt)
    have hpos : 0 < width n := Nat.length_toDigits_pos
    change width n ≤ _ at this
    omega

theorem value_lt (d : Decimal) : d.value < 10 ^ ((width d.digits : ℤ) + d.exponent) := by
  have h : (d.digits : ℚ) < 10 ^ width d.digits := by exact_mod_cast lt_pow_width d.digits
  rw [value, zpow_add₀ (by norm_num), zpow_natCast]
  gcongr

theorem le_value {d : Decimal} (h : d.digits ≠ 0) :
    10 ^ ((width d.digits : ℤ) + d.exponent - 1) ≤ d.value := by
  have hpos : 0 < width d.digits := Nat.length_toDigits_pos
  have hle : (10 : ℚ) ^ (width d.digits - 1) ≤ d.digits := by
    exact_mod_cast pow_width_le (Nat.pos_of_ne_zero h)
  have hexponent : (width d.digits : ℤ) + d.exponent - 1 =
      ((width d.digits - 1 : ℕ) : ℤ) + d.exponent := by omega
  rw [value, hexponent, zpow_add₀ (by norm_num), zpow_natCast]
  gcongr

theorem ten_zpow_eq (e : ℤ) : (10 : ℚ) ^ e = 10 ^ e.toNat / 10 ^ (-e).toNat := by
  rcases le_total 0 e with he | he
  · rw [Int.toNat_of_nonpos (by omega : -e ≤ 0), pow_zero, div_one, ← zpow_natCast,
      Int.toNat_of_nonneg he]
  · rw [Int.toNat_of_nonpos he, pow_zero, one_div, ← zpow_natCast, ← zpow_neg,
      Int.toNat_of_nonneg (by omega), neg_neg]

/-! ## Reading -/

/-- Powers are compared by their exponents: `2 ^ 93` is little less than `10 ^ 28`. -/
theorem two_pow_le_ten_pow {a b : ℕ} (h : 28 * a ≤ 93 * b) : (2 : ℚ) ^ a ≤ 10 ^ b := by
  have hnat : 2 ^ a ≤ 10 ^ b := by
    refine (Nat.pow_le_pow_iff_left (by decide : 93 ≠ 0)).mp ?_
    calc (2 ^ a) ^ 93 = (2 ^ 93) ^ a := by rw [← pow_mul, ← pow_mul, mul_comm]
      _ ≤ (10 ^ 28) ^ a := Nat.pow_le_pow_left (by norm_num) a
      _ = 10 ^ (28 * a) := (pow_mul 10 28 a).symm
      _ ≤ 10 ^ (93 * b) := Nat.pow_le_pow_right (by norm_num) h
      _ = (10 ^ b) ^ 93 := by rw [← pow_mul, mul_comm]
  exact_mod_cast hnat

/-- Reading a decimal is rounding its value. -/
theorem magnitude_eq_ofRat (d : Decimal) : d.magnitude = Magnitude.ofRat d.value := by
  unfold magnitude
  dsimp only
  split
  · rename_i hzero
    simp [value, hzero, Magnitude.ofRat]
  rename_i hzero
  split
  · rename_i hlarge
    refine (Magnitude.ofRat_of_large ?_).symm
    calc (2 : ℚ) ^ 1024 ≤ 10 ^ (310 : ℤ) := by
          rw [zpow_ofNat]
          exact two_pow_le_ten_pow (by omega)
      _ ≤ 10 ^ ((width d.digits : ℤ) + d.exponent - 1) :=
        zpow_le_zpow_right₀ (by norm_num) (by omega)
      _ ≤ d.value := le_value hzero
  split
  · rename_i hsmall
    have hnonneg : 0 ≤ d.value := by
      unfold value
      positivity
    refine (Magnitude.ofRat_of_small hnonneg ?_).symm
    calc d.value < 10 ^ ((width d.digits : ℤ) + d.exponent) := value_lt d
      _ ≤ 10 ^ (-330 : ℤ) := zpow_le_zpow_right₀ (by norm_num) (by omega)
      _ ≤ 2 ^ (-1075 : ℤ) := by
        rw [zpow_neg, zpow_neg]
        refine inv_anti₀ (by positivity) ?_
        rw [zpow_ofNat, zpow_ofNat]
        exact two_pow_le_ten_pow (by omega)
  · rw [Magnitude.nearest_eq_ofRat _ (Nat.pow_pos (by decide)), value, ten_zpow_eq]
    push_cast
    rw [mul_div_assoc]

/-- However large a decimal is, it is read as a number. -/
theorem magnitude_le_infinity (d : Decimal) : d.magnitude ≤ Magnitude.infinity := by
  rw [magnitude_eq_ofRat]
  exact Magnitude.ofRat_le_infinity _

/-- Decimals of one value are read alike. -/
theorem magnitude_congr {d d' : Decimal} (h : d.value = d'.value) :
    d.magnitude = d'.magnitude := by
  rw [magnitude_eq_ofRat, magnitude_eq_ofRat, h]

/-! ## Writing -/

theorem value_normalized (digits : ℕ) (exponent : ℤ) :
    (normalized digits exponent).value = value ⟨digits, exponent⟩ := by
  induction digits using Nat.strongRecOn generalizing exponent with
  | ind digits ih =>
    rw [normalized]
    split
    · rename_i h
      obtain ⟨n, hn⟩ : ∃ n, digits = n * 10 := ⟨digits / 10, by omega⟩
      rw [ih (digits / 10) (by omega), value, value, hn, Nat.mul_div_cancel _ (by decide),
        zpow_add₀ (by norm_num)]
      push_cast
      ring
    · rfl

theorem value_exact (k : ℕ) : (exact k).value = Magnitude.value k := by
  have h10 : ∀ n : ℕ, (10 : ℚ) ^ n = 2 ^ n * 5 ^ n := fun n => by rw [← mul_pow]; norm_num
  unfold exact value Magnitude.value
  dsimp only
  rcases le_total 0 (Magnitude.exponent k) with he | he
  · rw [min_eq_right he, Int.toNat_of_nonpos (by omega : -Magnitude.exponent k ≤ 0)]
    conv_rhs => rw [← Int.toNat_of_nonneg he]
    push_cast
    rw [zpow_natCast]
    ring
  · rw [min_eq_left he, ten_zpow_eq, Magnitude.two_zpow_eq, Int.toNat_of_nonpos he]
    push_cast
    field_simp
    rw [h10]
    ring

theorem magnitude_exact {k : ℕ} (hk : k < Magnitude.infinity) : (exact k).magnitude = k := by
  rw [magnitude_eq_ofRat, value_exact, Magnitude.ofRat_value hk]

theorem magnitude_of_onGrid? {tie : Tie} {k : ℕ} {grid : ℤ} {d : Decimal}
    (h : onGrid? tie k grid = some d) : d.magnitude = k := by
  unfold onGrid? at h
  dsimp only at h
  split at h
  · rename_i hbelow
    split at h
    · rename_i habove
      obtain rfl := Option.some.inj h
      simp only [Bool.and_eq_true, decide_eq_true_eq] at habove
      exact habove.1
    · obtain rfl := Option.some.inj h
      exact hbelow
  · split at h
    · rename_i habove
      obtain rfl := Option.some.inj h
      exact habove
    · cases h

/-- The shortest digits of a finite magnitude are read as that magnitude. -/
theorem magnitude_shortest (tie : Tie) {k : ℕ} (hk : k < Magnitude.infinity) :
    (shortest tie k).magnitude = k := by
  unfold shortest
  dsimp only
  rw [magnitude_congr (value_normalized _ _)]
  show Decimal.magnitude (Option.getD _ _) = k
  cases h : (List.range 17).findSome? fun i : ℕ => onGrid? tie k (leadingExponent k - i) with
  | none => exact magnitude_exact hk
  | some d =>
    obtain ⟨i, -, hi⟩ := List.exists_of_findSome?_eq_some h
    exact magnitude_of_onGrid? hi

end CircuitQir.Decimal
