import Mathlib.Data.Nat.Cast.Field
import Mathlib.Order.Monotone.Basic
import CircuitQir.Proofs.Double.Rounding
/-!
# The nearest magnitude

Consecutive magnitudes are one unit apart (`value_succ`), also across a change of the exponent, so
their values grow. `Magnitude.ofRat` rounds to the nearest of them, of two equally near ones to the
even one (`ofRat_eq_iff`), and so it keeps order (`ofRat_mono`). A whole number is rounded to a
whole number (`isWhole_ofRat_natCast`).

`value` gives infinity the value that the next magnitude would have, `2 ^ 1024`. What is nearer to
it than to any finite magnitude is rounded to infinity.
-/

namespace CircuitQir

theorem roundRat_le (q : ℚ) : roundRat q ≤ ⌊q⌋₊ + 1 := by
  unfold roundRat
  split
  · exact Nat.le_succ _
  · split <;> omega

/-- A number is rounded by less than a half, or by a half to an even one. -/
theorem abs_sub_roundRat {q : ℚ} (hq : 0 ≤ q) :
    |q - roundRat q| < 1 / 2 ∨ |q - roundRat q| = 1 / 2 ∧ Even (roundRat q) := by
  have hle := Nat.floor_le hq
  have hlt := Nat.lt_floor_add_one q
  unfold roundRat
  split
  · rw [abs_of_nonneg (by linarith)]
    exact .inl (by linarith)
  split
  · rw [Nat.cast_succ, abs_of_nonpos (by linarith)]
    exact .inl (by linarith)
  have htie : q - ⌊q⌋₊ = 1 / 2 := by linarith
  refine .inr ⟨?_, by rw [Nat.even_iff]; omega⟩
  rcases Nat.mod_two_eq_zero_or_one ⌊q⌋₊ with hmod | hmod
  · rw [hmod, Nat.add_zero, htie, abs_of_pos one_half_pos]
  · rw [hmod, Nat.cast_succ, ← sub_sub, htie]
    norm_num

/-- Distances in a unit. -/
theorem abs_sub_mul {u : ℚ} (hu : 0 < u) (q x : ℚ) : |q - x * u| = |q / u - x| * u := by
  rw [← abs_of_pos hu, ← abs_mul, abs_of_pos hu, sub_mul, div_mul_cancel₀ _ hu.ne']

/-- Every other natural number is farther away, or as far and then the result is even. -/
theorem roundRat_nearest {q : ℚ} (hq : 0 ≤ q) {n : ℕ} (hn : n ≠ roundRat q) :
    |q - roundRat q| < |q - n| ∨ |q - roundRat q| = |q - n| ∧ Even (roundRat q) := by
  have hapart : (1 : ℚ) ≤ |(roundRat q : ℚ) - n| := by
    exact_mod_cast Int.one_le_abs (sub_ne_zero.mpr (mt Nat.cast_inj.mp hn.symm))
  have hsum : 1 ≤ |q - roundRat q| + |q - n| := by
    rw [abs_sub_comm q (roundRat q)]
    exact hapart.trans (abs_sub_le _ _ _)
  rcases abs_sub_roundRat hq with hlt | ⟨htie, heven⟩
  · exact .inl (by linarith)
  · have hle : |q - roundRat q| ≤ |q - n| := by linarith
    exact hle.lt_or_eq.imp_right fun heq => ⟨heq, heven⟩

namespace Magnitude

/-! ## Values in order -/

/-- A magnitude is its mantissa in units of its exponent, which the mantissa fills if there is a
smaller one. -/
theorem mantissa_bounds (k : ℕ) : -1074 ≤ exponent k ∧ mantissa k < 2 ^ 53 ∧
    (2 ^ 52 ≤ mantissa k ∨ exponent k = -1074) ∧
      (exponent k + 1074).toNat * 2 ^ 52 + mantissa k = k := by
  unfold mantissa exponent
  split
  · omega
  · have hmod := Nat.mod_lt k (show 0 < 2 ^ 52 by decide)
    omega

/-- The magnitude of a mantissa in some unit. One that runs over is the first of the next unit. -/
theorem value_of_mantissa {m : ℕ} {e : ℤ} (he : -1074 ≤ e) (hm : m ≤ 2 ^ 53)
    (hfill : 2 ^ 52 ≤ m ∨ e = -1074) :
    value ((e + 1074).toNat * 2 ^ 52 + m) = m * 2 ^ e := by
  obtain ⟨n, rfl⟩ : ∃ n : ℕ, e = n - 1074 := ⟨(e + 1074).toNat, by omega⟩
  have hunits : ((n : ℤ) - 1074 + 1074).toNat = n := by omega
  rw [hunits, value, mantissa, exponent]
  by_cases hsub : n * 2 ^ 52 + m < 2 ^ 52
  · obtain rfl : n = 0 := by omega
    rw [if_pos hsub, if_pos hsub, Nat.zero_mul, Nat.zero_add]
    rfl
  rw [if_neg hsub, if_neg hsub]
  rcases Nat.lt_or_ge m (2 ^ 53) with hlt | hge
  · have hmantissa : (n * 2 ^ 52 + m) % 2 ^ 52 + 2 ^ 52 = m := by omega
    have hexponent : ((n * 2 ^ 52 + m) / 2 ^ 52 : ℕ) - (1075 : ℤ) = n - 1074 := by omega
    rw [hmantissa, hexponent]
  · obtain rfl : m = 2 ^ 53 := by omega
    have hmantissa : (n * 2 ^ 52 + 2 ^ 53) % 2 ^ 52 + 2 ^ 52 = 2 ^ 52 := by omega
    have hexponent : ((n * 2 ^ 52 + 2 ^ 53) / 2 ^ 52 : ℕ) - (1075 : ℤ) = n - 1074 + 1 := by omega
    rw [hmantissa, hexponent, zpow_add_one₀ two_ne_zero]
    push_cast
    ring

/-- The next magnitude is one unit larger. -/
theorem value_succ (k : ℕ) : value (k + 1) = value k + 2 ^ exponent k := by
  obtain ⟨he, hm, hfill, hk⟩ := mantissa_bounds k
  have hnext : (exponent k + 1074).toNat * 2 ^ 52 + (mantissa k + 1) = k + 1 := by omega
  rw [← hnext, value_of_mantissa he hm (hfill.imp_left Nat.le_succ_of_le), value]
  push_cast
  ring

theorem value_strictMono : StrictMono value := by
  refine strictMono_nat_of_lt_succ fun k => ?_
  rw [value_succ]
  have : (0 : ℚ) < 2 ^ exponent k := by positivity
  linarith

theorem value_zero : value 0 = 0 := by
  simp [value, mantissa]

theorem value_pos {k : ℕ} (hk : k ≠ 0) : 0 < value k := by
  rw [← value_zero]
  exact value_strictMono (Nat.pos_of_ne_zero hk)

theorem value_nonneg (k : ℕ) : 0 ≤ value k := by
  rw [← value_zero]
  exact value_strictMono.monotone (Nat.zero_le k)

/-- The mantissa has 53 digits, so no other magnitude is nearer than one part in `2 ^ 53`. -/
theorem div_le_abs_sub {j k : ℕ} (h : j ≠ k) : value k / 2 ^ 53 ≤ |value j - value k| := by
  have hunit (i : ℕ) : value (i + 1) ≤ 2 ^ 53 * 2 ^ exponent i := by
    obtain ⟨-, hm, -⟩ := mantissa_bounds i
    have hle : ((mantissa i + 1 : ℕ) : ℚ) ≤ 2 ^ 53 := by exact_mod_cast hm
    calc value (i + 1) = (mantissa i + 1 : ℕ) * 2 ^ exponent i := by
          rw [value_succ, value]
          push_cast
          ring
      _ ≤ 2 ^ 53 * 2 ^ exponent i := by gcongr
  rw [div_le_iff₀ (by positivity)]
  rcases Nat.lt_or_gt_of_ne h with hlt | hgt
  · obtain ⟨i, rfl⟩ : ∃ i, k = i + 1 := ⟨k - 1, by omega⟩
    have hle := value_strictMono.monotone (Nat.le_of_lt_succ hlt)
    rw [abs_sub_comm]
    calc value (i + 1) ≤ 2 ^ 53 * 2 ^ exponent i := hunit i
      _ = (value (i + 1) - value i) * 2 ^ 53 := by rw [value_succ]; ring
      _ ≤ |value (i + 1) - value j| * 2 ^ 53 := by
        gcongr
        exact le_trans (by linarith) (le_abs_self _)
  · have hle := value_strictMono.monotone (Nat.succ_le_of_lt hgt)
    have hk := value_strictMono.monotone (Nat.le_succ k)
    calc value k ≤ 2 ^ 53 * 2 ^ exponent k := hk.trans (hunit k)
      _ = (value (k + 1) - value k) * 2 ^ 53 := by rw [value_succ]; ring
      _ ≤ |value j - value k| * 2 ^ 53 := by
        gcongr
        exact le_trans (by linarith) (le_abs_self _)

/-! ## The nearest one -/

/-- Every other magnitude is farther away, or as far and this is the even one. -/
def IsNearest (q : ℚ) (k : ℕ) : Prop :=
  ∀ j ≠ k, |q - value k| < |q - value j| ∨ |q - value k| = |q - value j| ∧ Even k

/-- Of two even magnitudes that are equally near the one between them is nearer. -/
theorem IsNearest.eq {q : ℚ} {j k : ℕ} (hj : IsNearest q j) (hk : IsNearest q k) : j = k := by
  wlog hlt : j < k generalizing j k
  · by_contra hne
    exact hne (this hk hj (by omega)).symm
  exfalso
  have hkj := hk j hlt.ne
  have hjk := hj k hlt.ne'
  obtain ⟨heq, hjeven, hkeven⟩ : |q - value j| = |q - value k| ∧ Even j ∧ Even k := by
    rcases hkj with h | ⟨h, hkeven⟩
    · rcases hjk with h' | ⟨h', -⟩ <;> linarith
    · rcases hjk with h' | ⟨h', hjeven⟩
      · linarith
      · exact ⟨h', hjeven, hkeven⟩
  rw [Nat.even_iff] at hjeven hkeven
  have hleft : value j < value (j + 1) := value_strictMono (Nat.lt_succ_self j)
  have hright : value (j + 1) < value k := value_strictMono (by omega)
  have hmiddle : |q - value (j + 1)| < |q - value j| := by
    rcases abs_eq_abs.mp heq with h | h
    · linarith
    · rw [abs_of_pos (by linarith : 0 < q - value j), abs_lt]
      constructor <;> linarith
  rcases hj (j + 1) (Nat.succ_ne_self j) with h | ⟨h, -⟩ <;> linarith

/-- The unit that a number is rounded in. -/
def roundingExponent (q : ℚ) : ℤ := max (-1074) (Int.log 2 q - 52)

section

variable {q : ℚ}

theorem roundingExponent_bounds (hq : 0 < q) :
    -1074 ≤ roundingExponent q ∧ q < 2 ^ 53 * 2 ^ roundingExponent q ∧
      (2 ^ 52 * 2 ^ roundingExponent q ≤ q ∨ roundingExponent q = -1074) := by
  have hl := Int.zpow_log_le_self (b := 2) (by decide) hq
  have hu := Int.lt_zpow_succ_log_self (b := 2) (by decide) q
  push_cast at hl hu
  refine ⟨le_max_left _ _, ?_, ?_⟩
  · calc q < 2 ^ (Int.log 2 q + 1) := hu
      _ ≤ 2 ^ (53 + roundingExponent q) := by
        refine zpow_le_zpow_right₀ one_le_two ?_
        have := le_max_right (-1074) (Int.log 2 q - 52)
        rw [roundingExponent]
        omega
      _ = 2 ^ 53 * 2 ^ roundingExponent q := by rw [zpow_add₀ two_ne_zero]; rfl
  · rcases max_cases (-1074) (Int.log 2 q - 52) with ⟨h, -⟩ | ⟨h, -⟩
    · exact .inr h
    · left
      calc (2 : ℚ) ^ 52 * 2 ^ roundingExponent q = 2 ^ (52 + roundingExponent q) := by
            rw [zpow_add₀ two_ne_zero]; rfl
        _ = 2 ^ Int.log 2 q := by rw [roundingExponent, h, add_sub_cancel]
        _ ≤ q := hl

/-- What is rounded in its unit is a mantissa of that unit, or the first number of the next. -/
theorem roundRat_bounds (hq : 0 < q) :
    roundRat (q / 2 ^ roundingExponent q) ≤ 2 ^ 53 ∧
      (2 ^ 52 ≤ roundRat (q / 2 ^ roundingExponent q) ∨ roundingExponent q = -1074) := by
  obtain ⟨-, hlt, hfill⟩ := roundingExponent_bounds hq
  have hunit : (0 : ℚ) < 2 ^ roundingExponent q := by positivity
  constructor
  · have hfloor : ⌊q / 2 ^ roundingExponent q⌋₊ < 2 ^ 53 := by
      rw [Nat.floor_lt (by positivity), div_lt_iff₀ hunit]
      exact_mod_cast hlt
    exact (roundRat_le _).trans hfloor
  · refine hfill.imp_left fun hle => le_roundRat ?_
    rw [le_div_iff₀ hunit]
    exact_mod_cast hle

theorem ofRat_eq (hq : 0 < q) (h : q < 2 ^ 1024) :
    ofRat q = (roundingExponent q + 1074).toNat * 2 ^ 52 +
      roundRat (q / 2 ^ roundingExponent q) := by
  have hlog := (Int.lt_zpow_iff_log_lt (by decide : 1 < 2) hq (x := 1024)).mp (by exact_mod_cast h)
  have hexponent : roundingExponent q ≤ 971 := max_le (by decide) (by omega)
  have hround := (roundRat_bounds hq).1
  rw [ofRat, if_neg hq.ne']
  refine min_eq_right ?_
  change _ + roundRat (q / 2 ^ roundingExponent q) ≤ 2047 * 2 ^ 52
  change (roundingExponent q + 1074).toNat * 2 ^ 52 + _ ≤ _
  omega

theorem value_ofRat (hq : 0 < q) (h : q < 2 ^ 1024) :
    value (ofRat q) = roundRat (q / 2 ^ roundingExponent q) * 2 ^ roundingExponent q := by
  obtain ⟨hm, hfill⟩ := roundRat_bounds hq
  rw [ofRat_eq hq h, value_of_mantissa (roundingExponent_bounds hq).1 hm hfill]

/-- A magnitude is a multiple of a unit, or it is less than all that fill this unit. -/
theorem value_multiple (e : ℤ) (j : ℕ) :
    (∃ n : ℕ, value j = n * 2 ^ e) ∨ value j < 2 ^ 52 * 2 ^ e ∧ e ≠ -1074 := by
  obtain ⟨hlow, hm, -⟩ := mantissa_bounds j
  rcases le_or_gt e (exponent j) with hle | hlt
  · left
    refine ⟨mantissa j * 2 ^ (exponent j - e).toNat, ?_⟩
    push_cast
    rw [value, mul_assoc, ← zpow_natCast, Int.toNat_of_nonneg (by omega), ← zpow_add₀ two_ne_zero,
      sub_add_cancel]
  · refine .inr ⟨?_, by omega⟩
    calc value j < 2 ^ 53 * 2 ^ exponent j := by
          rw [value]
          gcongr
          exact_mod_cast hm
      _ ≤ 2 ^ 53 * 2 ^ (e - 1) := by
        gcongr
        · exact one_le_two
        · omega
      _ = 2 ^ 52 * 2 ^ e := by
        rw [zpow_sub_one₀ two_ne_zero]
        ring

/-- Rounding goes to the nearest magnitude. All that fill the unit or more are multiples of it, and
of these the rounded one is the nearest; the others are behind the first of these. -/
theorem isNearest_ofRat (hq : 0 ≤ q) (h : q < 2 ^ 1024) : IsNearest q (ofRat q) := by
  intro j hj
  rcases hq.eq_or_lt with rfl | hpos
  · have hzero : ofRat 0 = 0 := if_pos rfl
    rw [hzero] at hj ⊢
    rw [value_zero, sub_self, abs_zero, zero_sub, abs_neg]
    exact .inl (abs_pos.mpr (value_pos hj).ne')
  have hunit : (0 : ℚ) < 2 ^ roundingExponent q := by positivity
  have hround {n : ℕ} := roundRat_nearest (n := n) (div_nonneg hq hunit.le)
  have hvalue := value_ofRat hpos h
  rcases value_multiple (roundingExponent q) j with ⟨n, hn⟩ | ⟨hlt, hunfilled⟩
  · have hne : n ≠ roundRat (q / 2 ^ roundingExponent q) := by
      rintro rfl
      exact hj (value_strictMono.injective (hn.trans hvalue.symm))
    rw [hvalue, hn, abs_sub_mul hunit, abs_sub_mul hunit, mul_lt_mul_iff_left₀ hunit,
      mul_left_inj' hunit.ne', ofRat_eq hpos h]
    exact (hround hne).imp_right fun ⟨heq, heven⟩ =>
      ⟨heq, Even.add (Even.mul_left (Nat.even_pow.mpr ⟨even_two, by decide⟩) _) heven⟩
  · have hfirst := (roundingExponent_bounds hpos).2.2.resolve_right hunfilled
    left
    calc |q - value (ofRat q)| ≤ |q - (2 ^ 52 : ℕ) * 2 ^ roundingExponent q| := by
          rw [hvalue, abs_sub_mul hunit, abs_sub_mul hunit]
          refine mul_le_mul_of_nonneg_right ?_ hunit.le
          rcases eq_or_ne (2 ^ 52) (roundRat (q / 2 ^ roundingExponent q)) with heq | hne
          · rw [heq]
          · exact (hround hne).elim le_of_lt fun ⟨heq, _⟩ => heq.le
      _ = q - 2 ^ 52 * 2 ^ roundingExponent q := by
        push_cast
        exact abs_of_nonneg (sub_nonneg.mpr hfirst)
      _ < q - value j := by linarith
      _ ≤ |q - value j| := le_abs_self _

theorem value_infinity : value infinity = 2 ^ 1024 := by
  have h := value_of_mantissa (m := 2 ^ 53) (e := 971) (by decide) le_rfl (.inl (by decide))
  change value infinity = _ at h
  rw [h, Nat.cast_pow, Nat.cast_ofNat, ← zpow_natCast, ← zpow_add₀ two_ne_zero]
  rfl

/-- What a number that is not negative is rounded to, if that is finite. -/
theorem ofRat_eq_iff (hq : 0 ≤ q) {k : ℕ} (hk : k < infinity) : ofRat q = k ↔ IsNearest q k := by
  rcases lt_or_ge q (2 ^ 1024) with hlt | hge
  · exact ⟨fun h => h ▸ isNearest_ofRat hq hlt, fun h => (isNearest_ofRat hq hlt).eq h⟩
  · refine iff_of_false ((ofRat_of_large hge).trans_ne hk.ne') fun h => ?_
    have hvalue : value k < value infinity := value_strictMono hk
    have hinfinity : |q - value infinity| < |q - value k| := by
      rw [← value_infinity] at hge
      rw [abs_of_nonneg (by linarith), abs_of_pos (by linarith)]
      linarith
    rcases h infinity hk.ne' with h | ⟨h, -⟩ <;> linarith

/-- Rounding keeps order. -/
theorem ofRat_mono {q' : ℚ} (hq : 0 ≤ q) (hle : q ≤ q') : ofRat q ≤ ofRat q' := by
  rcases lt_or_ge q' (2 ^ 1024) with hlt | hge
  · by_contra hgt
    rw [not_le] at hgt
    have hnearest := isNearest_ofRat hq (hle.trans_lt hlt) _ hgt.ne
    have hnearest' := isNearest_ofRat (hq.trans hle) hlt _ hgt.ne'
    have hsq := sq_le_sq.mpr (hnearest.elim le_of_lt fun h => h.1.le)
    have hsq' := sq_le_sq.mpr (hnearest'.elim le_of_lt fun h => h.1.le)
    have hmul : (value (ofRat q) - value (ofRat q')) * (q' - q) ≤ 0 := by linarith
    have hvalue := sub_pos.mpr (value_strictMono hgt)
    obtain rfl : q = q' := hle.antisymm (sub_nonpos.mp (nonpos_of_mul_nonpos_right hmul hvalue))
    exact hgt.false
  · rw [ofRat_of_large hge]
    exact ofRat_le_infinity q

/-- A number that differs from a magnitude by little is rounded to it. -/
theorem ofRat_eq_of_abs_sub_lt (hq : 0 ≤ q) {k : ℕ} (hk : k < infinity)
    (h : |q - value k| < value k / 2 ^ 54) : ofRat q = k := by
  refine (ofRat_eq_iff hq hk).mpr fun j hj => .inl ?_
  have hapart := div_le_abs_sub hj
  have hsum : |value j - value k| ≤ |q - value j| + |q - value k| := by
    rw [abs_sub_comm q (value j)]
    exact abs_sub_le _ _ _
  have hhalf : value k / 2 ^ 53 = value k / 2 ^ 54 + value k / 2 ^ 54 := by ring
  linarith

end

/-! ## Whole numbers -/

theorem value_of_isWhole {k : ℕ} (h : isWhole k = true) :
    value k = (numerator k / denominator k : ℕ) := by
  have hdvd : denominator k ∣ numerator k := Nat.dvd_of_mod_eq_zero (of_decide_eq_true h)
  rw [value_eq_div, Nat.cast_div hdvd]
  exact_mod_cast (denominator_pos k).ne'

theorem isWhole_iff {k : ℕ} : isWhole k = true ↔ ∃ n : ℕ, value k = n := by
  refine ⟨fun h => ⟨_, value_of_isWhole h⟩, ?_⟩
  rintro ⟨n, hn⟩
  rw [value_eq_div, div_eq_iff (by exact_mod_cast (denominator_pos k).ne')] at hn
  have hmul : numerator k = n * denominator k := by exact_mod_cast hn
  rw [isWhole, hmul, Nat.mul_mod_left, decide_eq_true rfl]

/-- A whole number is a multiple of each unit up to one. -/
theorem value_ofRat_of_unit_le {n : ℕ} (hn : 0 < n) (h : (n : ℚ) < 2 ^ 1024)
    (hunit : roundingExponent n ≤ 0) : value (ofRat n) = n := by
  obtain ⟨e, he⟩ := Int.exists_eq_neg_ofNat hunit
  have hexact : (n : ℚ) / 2 ^ (-e : ℤ) = (n * 2 ^ e : ℕ) := by
    rw [zpow_neg, zpow_natCast, div_inv_eq_mul]
    push_cast
    rfl
  rw [value_ofRat (by exact_mod_cast hn) h, he, hexact, roundRat_natCast, ← hexact,
    div_mul_cancel₀ _ (by positivity)]

/-- A whole number of 53 binary digits is kept. -/
theorem value_ofRat_natCast {n : ℕ} (h : n < 2 ^ 53) : value (ofRat n) = n := by
  rcases Nat.eq_zero_or_pos n with rfl | hpos
  · rw [Nat.cast_zero, ofRat, if_pos rfl, value_zero]
  have hq : (0 : ℚ) < n := Nat.cast_pos.mpr hpos
  have hlt : (n : ℚ) < 2 ^ 53 := by exact_mod_cast h
  have hlog := (Int.lt_zpow_iff_log_lt (by decide : 1 < 2) hq (x := 53)).mp (by exact_mod_cast hlt)
  exact value_ofRat_of_unit_le hpos (hlt.trans (pow_lt_pow_right₀ one_lt_two (by decide)))
    (max_le (by decide) (by omega))

/-- A whole number is rounded to a whole number. -/
theorem isWhole_ofRat_natCast {n : ℕ} (h : ofRat n < infinity) : isWhole (ofRat n) = true := by
  have hlt : (n : ℚ) < 2 ^ 1024 := by
    by_contra hge
    exact h.ne (ofRat_of_large (not_lt.mp hge))
  rw [isWhole_iff]
  rcases Nat.eq_zero_or_pos n with rfl | hpos
  · exact ⟨0, by rw [Nat.cast_zero, ofRat, if_pos rfl, value_zero]⟩
  rcases le_total (roundingExponent n) 0 with hle | hge
  · exact ⟨n, value_ofRat_of_unit_le hpos hlt hle⟩
  · obtain ⟨e, he⟩ := Int.eq_ofNat_of_zero_le hge
    rw [value_ofRat (by exact_mod_cast hpos) hlt, he, zpow_natCast]
    exact ⟨roundRat (n / 2 ^ e) * 2 ^ e, by push_cast; rfl⟩

end Magnitude

end CircuitQir
