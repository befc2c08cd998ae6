/-!
# Numbers and bytes as bits

The bits of a number are listed from the least significant on, and the bits of a byte string are
those of its bytes in order. So a stream of bits is a `List Bool`, cutting a field off its front
is `List.splitAt`, and reading the field is `Bits.toNat`.
-/

-- A power of a number is the same term whatever algebra is imported along with the library.
attribute [instance (1100), default_instance (10100)] instPowNat

namespace CircuitQir.Bits

/-- The lowest `width` bits of a number, least significant first. -/
def ofNat : (width n : Nat) → List Bool
  | 0, _ => []
  | width + 1, n => (n % 2 == 1) :: ofNat width (n / 2)

/-- The number whose bits these are, least significant first. -/
def toNat : List Bool → Nat
  | [] => 0
  | b :: bs => b.toNat + 2 * toNat bs

/-- The bits of a byte string. -/
def ofBytes (bytes : List UInt8) : List Bool :=
  bytes.flatMap fun b => ofNat 8 b.toNat

@[simp] theorem length_ofNat (width n : Nat) : (ofNat width n).length = width := by
  induction width generalizing n with
  | zero => rfl
  | succ width ih => simp [ofNat, ih]

/-- Writing a number in `width` bits keeps it modulo `2 ^ width`. -/
theorem toNat_ofNat (width n : Nat) : toNat (ofNat width n) = n % 2 ^ width := by
  induction width generalizing n with
  | zero => simp [ofNat, toNat, Nat.mod_one]
  | succ width ih =>
    have hb : (n % 2 == 1).toNat = n % 2 := by
      rcases Nat.mod_two_eq_zero_or_one n with h | h <;> simp [h]
    rw [ofNat, toNat, ih, hb, Nat.pow_succ', Nat.mod_mul]

theorem toNat_lt (bs : List Bool) : toNat bs < 2 ^ bs.length := by
  induction bs with
  | nil => simp [toNat]
  | cons b bs ih =>
    have : b.toNat ≤ 1 := Bool.toNat_le b
    simp only [toNat, List.length_cons, Nat.pow_succ']
    omega

theorem ofNat_toNat (bs : List Bool) : ofNat bs.length (toNat bs) = bs := by
  induction bs with
  | nil => rfl
  | cons b bs ih =>
    cases b
    · simp only [toNat, List.length_cons, ofNat, Bool.toNat_false, Nat.zero_add,
        Nat.mul_mod_right, Nat.mul_div_cancel_left _ (by decide : 0 < 2), ih]
      rfl
    · have hm : (1 + 2 * toNat bs) % 2 = 1 := by omega
      have hd : (1 + 2 * toNat bs) / 2 = toNat bs := by omega
      simp [toNat, ofNat, hm, hd, ih]

@[simp] theorem ofBytes_nil : ofBytes [] = [] := rfl

theorem ofBytes_append (xs ys : List UInt8) : ofBytes (xs ++ ys) = ofBytes xs ++ ofBytes ys := by
  simp [ofBytes]

theorem length_ofBytes (bytes : List UInt8) : (ofBytes bytes).length = 8 * bytes.length := by
  induction bytes with
  | nil => rfl
  | cons b bytes ih =>
    have : ofBytes (b :: bytes) = ofNat 8 b.toNat ++ ofBytes bytes := rfl
    simp only [this, List.length_append, length_ofNat, ih, List.length_cons]
    omega

end CircuitQir.Bits
