import CircuitQir.Double.Stepwise
import CircuitQir.Proofs.Double.Fewest
/-!
# Decimals read step by step

Each step of `Decimal.stepwise?` rounds a rational number (`times_eq_ofRat`, `quotient_eq_ofRat`),
so it keeps order. That is how a decimal of seventeen digits is seen to stay in range: dividing
makes nothing larger, and for each power to multiply with, the largest digits that a finite
magnitude has room for are tried (`Magnitude.times_powerOfTen_lt`).

Where the digits and the power of ten are doubles themselves only the last step rounds, and the
result is the nearest magnitude after all (`Decimal.stepwise?_eq_magnitude`).
-/

namespace CircuitQir

namespace Magnitude

variable {j k : ℕ}

/-! ## One step -/

theorem times_eq_ofRat (j k : ℕ) : times j k = ofRat (value j * value k) := by
  rw [times, nearest_eq_ofRat _ (Nat.mul_pos (denominator_pos j) (denominator_pos k)),
    value_eq_div, value_eq_div, div_mul_div_comm]
  push_cast
  rfl

theorem numerator_pos (hk : k ≠ 0) : 0 < numerator k := by
  refine Nat.mul_pos (Nat.pos_of_ne_zero fun hzero => ?_) (Nat.pow_pos (by decide))
  have hpos := value_pos hk
  rw [value, hzero, Nat.cast_zero, zero_mul] at hpos
  exact lt_irrefl _ hpos

theorem quotient_eq_ofRat (j : ℕ) (hk : k ≠ 0) : quotient j k = ofRat (value j / value k) := by
  rw [quotient, nearest_eq_ofRat _ (Nat.mul_pos (denominator_pos j) (numerator_pos hk)),
    value_eq_div, value_eq_div, div_div_div_eq]
  push_cast
  rfl

theorem nearest_one (n : ℕ) : nearest n 1 = ofRat n := by
  rw [nearest_eq_ofRat n Nat.one_pos, Nat.cast_one, div_one]

/-- What is rounded up is not rounded beyond a magnitude. -/
theorem ofRat_le {q : ℚ} (hq : 0 ≤ q) (hk : k < infinity) (h : q ≤ value k) : ofRat q ≤ k :=
  (ofRat_mono hq h).trans_eq (ofRat_value hk)

theorem times_le_times {i l : ℕ} (h : j ≤ k) (h' : i ≤ l) : times j i ≤ times k l := by
  rw [times_eq_ofRat, times_eq_ofRat]
  refine ofRat_mono (mul_nonneg (value_nonneg j) (value_nonneg i)) ?_
  exact mul_le_mul (value_strictMono.monotone h) (value_strictMono.monotone h') (value_nonneg i)
    (value_nonneg k)

theorem nearest_le_nearest {m n : ℕ} (h : m ≤ n) : nearest m 1 ≤ nearest n 1 := by
  rw [nearest_one, nearest_one]
  exact ofRat_mono m.cast_nonneg (Nat.cast_le.mpr h)

/-- A whole number of 53 binary digits is a bound before and after rounding. -/
theorem le_value_nearest {m n : ℕ} (hm : m < 2 ^ 53) (hle : m ≤ n) : m ≤ value (nearest n 1) := by
  rw [nearest_one, ← value_ofRat_natCast hm]
  exact value_strictMono.monotone (ofRat_mono m.cast_nonneg (Nat.cast_le.mpr hle))

/-! ## Powers of ten -/

theorem powerOfTen_le_powerOfTen {m n : ℕ} (h : m ≤ n) : powerOfTen m ≤ powerOfTen n :=
  nearest_le_nearest (Nat.pow_le_pow_right (by decide) h)

theorem one_le_value_powerOfTen (n : ℕ) : 1 ≤ value (powerOfTen n) := by
  have hle := le_value_nearest (m := 1) (by decide) (Nat.one_le_pow n 10 (by decide))
  rwa [Nat.cast_one] at hle

theorem powerOfTen_ne_zero (n : ℕ) : powerOfTen n ≠ 0 := by
  intro hzero
  have hle := one_le_value_powerOfTen n
  rw [hzero, value_zero] at hle
  exact absurd hle (by norm_num)

/-- Powers of ten that are doubles themselves. -/
theorem value_powerOfTen {e : ℕ} (he : e ≤ 22) : value (powerOfTen e) = 10 ^ e := by
  have hexact : ∀ e < 23, numerator (powerOfTen e) = 10 ^ e * denominator (powerOfTen e) := by
    decide +kernel
  have hden : (denominator (powerOfTen e) : ℚ) ≠ 0 := by
    exact_mod_cast (denominator_pos _).ne'
  rw [value_eq_div, hexact e (Nat.lt_succ_of_le he), Nat.cast_mul, mul_div_cancel_right₀ _ hden,
    Nat.cast_pow, Nat.cast_ofNat]

/-- Dividing by a power of ten makes nothing larger. -/
theorem quotient_powerOfTen_le (hk : k < infinity) (n : ℕ) : quotient k (powerOfTen n) ≤ k := by
  have hnonneg := value_nonneg k
  have hle := one_le_value_powerOfTen n
  rw [quotient_eq_ofRat k (powerOfTen_ne_zero n)]
  exact ofRat_le (by positivity) hk (div_le_self hnonneg hle)

theorem quotient_powerOfTen_lt (hk : k < infinity) (n : ℕ) :
    quotient k (powerOfTen n) < infinity :=
  (quotient_powerOfTen_le hk n).trans_lt hk

theorem exists_scale?_of_neg {e : ℤ} (hk : k < infinity) (he : e < 0) :
    ∃ j ≤ k, scale? k e = some j := by
  fun_induction scale? k e with
  | case1 | case2 | case5 => omega
  | case3 k e => exact ⟨_, quotient_powerOfTen_le hk _, rfl⟩
  | case4 => exact ⟨_, le_rfl, rfl⟩
  | case6 k e hbig hne hneg ih =>
    obtain ⟨j, hj, heq⟩ := ih (quotient_powerOfTen_lt hk _) (by omega)
    exact ⟨j, hj.trans (quotient_powerOfTen_le hk _), heq⟩

/-- The largest finite double, a whole number. -/
def largest : ℕ := numerator (infinity - 1)

theorem value_largest : value (infinity - 1) = largest := by
  have hden : denominator (infinity - 1) = 1 := rfl
  rw [value_eq_div, hden, Nat.cast_one, div_one, largest]

theorem width_largest : Decimal.width largest = 309 := by
  decide +kernel

theorem lt_of_mul_le_largest {n e : ℕ} (hn : n ≠ 0) (hle : n * 10 ^ e ≤ largest) : e < 309 := by
  have hpower : 10 ^ e < 10 ^ Decimal.width largest :=
    ((Nat.le_mul_of_pos_left _ (Nat.pos_of_ne_zero hn)).trans hle).trans_lt
      (Decimal.lt_pow_width largest)
  exact width_largest ▸ (Nat.pow_lt_pow_iff_right (by decide)).mp hpower

/-- The digits that a finite number has room for in front of a large power of ten, if they are at
most seventeen, are not rounded out of range. -/
theorem times_powerOfTen_lt : ∀ i < 18,
    times (nearest (min (10 ^ 17) (largest / 10 ^ (291 + i))) 1) (powerOfTen (291 + i)) <
      infinity := by
  decide +kernel

theorem times_lt_infinity {n e : ℕ} (hn : n ≠ 0) (hdigits : n ≤ 10 ^ 17)
    (hle : n * 10 ^ e ≤ largest) : times (nearest n 1) (powerOfTen e) < infinity := by
  rcases Nat.lt_or_ge e 291 with hsmall | hlarge
  · -- Here the digits may be any: they are in range in front of a larger power.
    refine lt_of_le_of_lt ?_ (times_powerOfTen_lt 0 (by decide))
    refine times_le_times (nearest_le_nearest ?_) (powerOfTen_le_powerOfTen hsmall.le)
    rwa [min_eq_left (by decide +kernel)]
  · obtain ⟨i, rfl⟩ := Nat.exists_eq_add_of_le hlarge
    have hi := lt_of_mul_le_largest hn hle
    refine lt_of_le_of_lt ?_ (times_powerOfTen_lt i (by omega))
    refine times_le_times (nearest_le_nearest (le_min hdigits ?_)) le_rfl
    exact (Nat.le_div_iff_mul_le (Nat.pow_pos (by decide))).mpr hle

end Magnitude

namespace Decimal

open Magnitude (infinity largest)

/-! ## All steps -/

theorem value_le_largest_iff {n e : ℕ} : value ⟨n, e⟩ ≤ largest ↔ n * 10 ^ e ≤ largest := by
  rw [value, zpow_natCast]
  exact_mod_cast Iff.rfl

/-- A decimal of seventeen digits is not put out of range unless it is larger than all finite
doubles. -/
theorem exists_stepwise? {d : Decimal} (hne : d.digits ≠ 0) (hdigits : d.digits ≤ 10 ^ 17)
    (hle : d.value ≤ largest) : ∃ k < infinity, d.stepwise? = some k := by
  rcases lt_or_ge d.exponent 0 with hneg | hnonneg
  · have hk : Magnitude.nearest d.digits 1 < infinity :=
      (Magnitude.nearest_le_nearest hdigits).trans_lt (by decide)
    obtain ⟨k, hle, heq⟩ := Magnitude.exists_scale?_of_neg hk hneg
    exact ⟨k, hle.trans_lt hk, heq⟩
  · obtain ⟨e, he⟩ := Int.eq_ofNat_of_zero_le hnonneg
    obtain ⟨digits, exponent⟩ := d
    obtain rfl : exponent = e := he
    have hnat := value_le_largest_iff.mp hle
    have hlt := Magnitude.times_lt_infinity hne hdigits hnat
    have hat : e ≤ 308 := Nat.le_of_lt_succ (Magnitude.lt_of_mul_le_largest hne hnat)
    refine ⟨_, hlt, ?_⟩
    rw [stepwise?, Magnitude.scale?, Int.natAbs_natCast, if_pos hat,
      if_pos (Int.natCast_nonneg e)]
    exact if_neg hlt.ne

/-- The digits of the largest finite double, cut off behind the seventeenth. -/
theorem findSome?_onGrid?_largest (tie : Tie) :
    (List.range 17).findSome? (fun i : ℕ =>
      onGrid? tie (infinity - 1) (leadingExponent (infinity - 1) - i)) =
        some ⟨17976931348623157, 292⟩ := by
  cases tie <;> decide +kernel

/-- No shortest digits stand for more than the largest finite double. -/
theorem value_shortest_le (tie : Tie) {k : ℕ} (hk : k < infinity) :
    (shortest tie k).value ≤ largest := by
  rcases (Nat.le_sub_one_of_lt hk).eq_or_lt with rfl | hlt
  · unfold shortest
    dsimp only
    rw [findSome?_onGrid?_largest, Option.getD_some, value_normalized]
    exact value_le_largest_iff.mpr (by decide +kernel)
  · by_contra hgt
    rw [not_le, ← Magnitude.value_largest] at hgt
    have hmono := Magnitude.ofRat_mono (Magnitude.value_nonneg _) hgt.le
    rw [Magnitude.ofRat_value (by decide), ← magnitude_eq_ofRat, magnitude_shortest tie hk] at hmono
    omega

/-- Where digits and power of ten are doubles themselves, only the last step rounds. -/
theorem stepwise?_eq_magnitude {d : Decimal} (hdigits : d.digits < 2 ^ 53)
    (hexponent : d.exponent.natAbs ≤ 22) (hfinite : d.magnitude < infinity) :
    d.stepwise? = some d.magnitude := by
  have hvalue : Magnitude.value (Magnitude.nearest d.digits 1) = d.digits := by
    rw [Magnitude.nearest_one, Magnitude.value_ofRat_natCast hdigits]
  have hpower := Magnitude.value_powerOfTen hexponent
  rw [stepwise?, Magnitude.scale?, if_pos (hexponent.trans (by decide))]
  rw [magnitude_eq_ofRat, value] at hfinite ⊢
  split
  · rename_i hnonneg
    have heq : Magnitude.times (Magnitude.nearest d.digits 1)
        (Magnitude.powerOfTen d.exponent.natAbs) =
          Magnitude.ofRat (d.digits * 10 ^ d.exponent) := by
      rw [Magnitude.times_eq_ofRat, hvalue, hpower, ← zpow_natCast, Int.natAbs_of_nonneg hnonneg]
    rw [heq]
    exact if_neg hfinite.ne
  · rename_i hneg
    have habs : (d.exponent.natAbs : ℤ) = -d.exponent := by omega
    rw [Magnitude.quotient_eq_ofRat _ (Magnitude.powerOfTen_ne_zero _), hvalue, hpower,
      ← zpow_natCast, habs, zpow_neg, div_inv_eq_mul]

end Decimal

end CircuitQir
