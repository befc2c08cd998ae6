import CircuitQir.Bitstream.Decoding
import CircuitQir.Proofs.Bitstream.Machine
/-!
# What readers keep to

Each reader of the container is given a triple (`Reader.Keeps`): from wherever on an input it
starts, it stays on it, with how far it moves ahead at least and what holds of the thing it gives.
The triples are put together the way the readers are. They carry the checks made on an abbreviation
when it is defined (`Abbreviation.InRange`) to the records that it lays out, and with them each
element of an array, like every other thing that input asks to be read a number of times, takes up
bits (`Reader.Loops`).
-/

namespace CircuitQir.Bitstream

variable {bytes : List UInt8} {α β : Type}

/-- The place that an error names, if it names one, is on the input. -/
def Error.On (bytes : List UInt8) : Error → Prop
  | badMagic => True
  | endOfInput bit | unknownAbbreviation _ bit | malformed bit _ => bit ≤ 8 * bytes.length

namespace Reader

/-- How reading from `c` comes out: with something `good`, on the input and at least `least` bits
ahead, or with an error that names a place on the input. -/
def Lands (bytes : List UInt8) (least : Nat) (good : α → Prop) (c : Cursor) :
    Except Error (α × Cursor) → Prop
  | .ok (x, c') => good x ∧ c'.On bytes ∧ c.position + least ≤ c'.position
  | .error e => e.On bytes

/-- From everywhere on the input, reading comes out as said. -/
def Keeps (bytes : List UInt8) (least : Nat) (good : α → Prop) (r : Reader α) : Prop :=
  ∀ c, c.On bytes → Lands bytes least good c (r c)

variable {m n : Nat} {good : α → Prop} {good' : β → Prop} {r : Reader α} {f : α → Reader β}

theorem Keeps.ok {c c' : Cursor} {x : α} (h : Keeps bytes n good r) (hc : c.On bytes)
    (hr : r c = .ok (x, c')) : good x ∧ c'.On bytes ∧ c.position + n ≤ c'.position := by
  have := h c hc
  rwa [hr] at this

theorem Keeps.error {c : Cursor} {e : Error} (h : Keeps bytes n good r) (hc : c.On bytes)
    (hr : r c = .error e) : e.On bytes := by
  have := h c hc
  rwa [hr] at this

theorem Keeps.imp {good' : α → Prop} (h : Keeps bytes m good r) (hn : n ≤ m)
    (hgood : ∀ x, good x → good' x) : Keeps bytes n good' r := by
  intro c hc
  have := h c hc
  cases hr : r c with
  | error e => rwa [hr] at this
  | ok p =>
    rw [hr] at this
    obtain ⟨hx, hc', hle⟩ := this
    exact ⟨hgood _ hx, hc', by omega⟩

theorem keeps_pure {x : α} (hx : good x) : Keeps bytes 0 good (pure x) :=
  fun _ hc => ⟨hx, hc, Nat.le_refl _⟩

theorem keeps_throw {e : Error} (he : e.On bytes) : Keeps bytes n good (throw e) :=
  fun _ _ => he

theorem keeps_malformed {bit : Nat} {flaw : Flaw} (hbit : bit ≤ 8 * bytes.length) :
    Keeps bytes n good (malformed bit flaw) :=
  keeps_throw hbit

theorem keeps_lift {x : Except Error α} (hgood : ∀ y, x = .ok y → good y)
    (herror : ∀ e, x = .error e → e.On bytes) : Keeps bytes 0 good (liftM x) := by
  intro c hc
  cases x with
  | error e => exact herror e rfl
  | ok y => exact ⟨hgood y rfl, hc, Nat.le_refl _⟩

theorem Keeps.bind (hr : Keeps bytes m good r) (hf : ∀ x, good x → Keeps bytes n good' (f x)) :
    Keeps bytes (m + n) good' (r >>= f) := by
  intro c hc
  cases hx : r c with
  | error e =>
    rw [bind_apply_error hx]
    exact hr.error hc hx
  | ok p =>
    obtain ⟨x, c₁⟩ := p
    obtain ⟨hgood, hc₁, hle⟩ := hr.ok hc hx
    rw [bind_apply_ok hx]
    have := hf x hgood c₁ hc₁
    cases hy : f x c₁ with
    | error e => rwa [hy] at this
    | ok q =>
      rw [hy] at this
      obtain ⟨hgood', hc', hle'⟩ := this
      exact ⟨hgood', hc', by omega⟩

/-- Something is read first that need not take up bits. -/
theorem Keeps.before (hr : Keeps bytes m good r)
    (hf : ∀ x, good x → Keeps bytes n good' (f x)) : Keeps bytes n good' (r >>= f) :=
  (hr.bind hf).imp (Nat.le_add_left n m) fun _ => id

theorem keeps_get : Keeps bytes 0 (Cursor.On bytes) get :=
  fun _ hc => ⟨hc, hc, Nat.le_refl _⟩

theorem keeps_position : Keeps bytes 0 (· ≤ 8 * bytes.length) position :=
  fun _ hc => ⟨hc.position_le, hc, Nat.le_refl _⟩

theorem keeps_number (width : Nat) : Keeps bytes width (· < 2 ^ width) (number width) := by
  intro c hc
  rcases hc.number width with ⟨-, h⟩ | ⟨hroom, h⟩
  · rw [h]
    exact hc.position_le
  · rw [h]
    refine ⟨?_, hc.drop hroom, Nat.le_refl _⟩
    exact Nat.lt_of_lt_of_le (Bits.toNat_lt _)
      (Nat.pow_le_pow_right (by decide) (List.length_take_le ..))

theorem keeps_align : Keeps bytes 0 (fun _ => True) align :=
  keeps_position.before fun _ _ => (keeps_number _).before fun _ _ => keeps_pure trivial

theorem keeps_times (h : Keeps bytes m good r) :
    ∀ n, Keeps bytes (n * m) (fun xs : List α => ∀ x ∈ xs, good x) (times r n)
  | 0 => (keeps_pure (by simp)).imp (by omega) fun _ => id
  | n + 1 => by
    have hrest (x : α) (hx : good x) : Keeps bytes (n * m + 0)
        (fun xs : List α => ∀ x ∈ xs, good x) (times r n >>= fun xs => pure (x :: xs)) :=
      (keeps_times h n).bind fun xs hxs => keeps_pure (List.forall_mem_cons.mpr ⟨hx, hxs⟩)
    exact (h.bind hrest).imp (by rw [Nat.succ_mul]; omega) fun _ => id

/-- A number that a word can hold is below `2 ^ 64`. -/
theorem Keeps.lt_of_refines {r : Reader Nat} {g : Guarded UInt64} {good : Nat → Prop}
    (h : Keeps bytes n good r) (hg : Guarded.Refines bytes g r) :
    Keeps bytes n (fun v => good v ∧ v < 2 ^ 64) r := by
  intro c hc
  obtain ⟨outcome, -, hr⟩ := hg c hc
  have := h c hc
  rw [hr] at this ⊢
  cases outcome with
  | error e => exact this
  | ok p => exact ⟨⟨this.1, p.1.toNat_lt⟩, this.2⟩

/-! ## Loops -/

/-- The positions that a loop of `n` rounds comes by: where each round starts, and where the last
one ends if none fails. -/
def stops (r : Reader α) : (n : Nat) → Cursor → List Nat
  | 0, c => [c.position]
  | n + 1, c => c.position :: match r c with
    | .ok (_, c') => stops r n c'
    | .error _ => []

/-- What can be read in a loop, however many rounds the input asks for: each round that comes to an
end does so farther ahead, none goes past the end of the input, and if none fails the loop has moved
ahead by a bit for each. -/
structure Loops (bytes : List UInt8) (r : Reader α) : Prop where
  grow : ∀ n c, c.On bytes → (stops r n c).Pairwise (· < ·)
  stay : ∀ n c, c.On bytes → ∀ p ∈ stops r n c, p ≤ 8 * bytes.length
  pass : ∀ n c, c.On bytes → ∀ xs c', times r n c = .ok (xs, c') →
    (stops r n c).getLast? = some c'.position ∧ c.position + n ≤ c'.position

/-- A loop that comes to an end does so at the last of its stops. -/
theorem getLast?_stops : ∀ {n : Nat} {c c' : Cursor} {xs : List α},
    times r n c = .ok (xs, c') → (stops r n c).getLast? = some c'.position
  | 0, c, c', xs, h => by
    cases h
    rfl
  | n + 1, c, c', xs, h => by
    obtain ⟨x, c₁, hr, h⟩ := exists_of_bind h
    obtain ⟨ys, c₂, hys, h⟩ := exists_of_bind h
    cases h
    rw [stops, hr, List.getLast?_cons, getLast?_stops hys]
    rfl

theorem le_of_mem_stops (h : Keeps bytes m good r) : ∀ {n : Nat} {c : Cursor}, c.On bytes →
    ∀ p ∈ stops r n c, c.position ≤ p ∧ p ≤ 8 * bytes.length
  | 0, c, hc, p, hp => by
    obtain rfl := List.mem_singleton.mp hp
    exact ⟨Nat.le_refl _, hc.position_le⟩
  | n + 1, c, hc, p, hp => by
    rw [stops] at hp
    rcases List.mem_cons.mp hp with rfl | hp
    · exact ⟨Nat.le_refl _, hc.position_le⟩
    · cases hr : r c with
      | error e =>
        rw [hr] at hp
        exact absurd hp List.not_mem_nil
      | ok q =>
        obtain ⟨x, c'⟩ := q
        rw [hr] at hp
        obtain ⟨-, hc', hle⟩ := h.ok hc hr
        have := le_of_mem_stops h hc' p hp
        omega

/-- What takes up a bit or more can be read in a loop. -/
theorem Keeps.loops (h : Keeps bytes m good r) (hm : 0 < m) : Loops bytes r where
  grow n c hc := by
    induction n generalizing c with
    | zero => exact List.pairwise_singleton ..
    | succ n ih =>
      rw [stops]
      cases hr : r c with
      | error e => exact List.pairwise_singleton ..
      | ok q =>
        obtain ⟨x, c'⟩ := q
        obtain ⟨-, hc', hle⟩ := h.ok hc hr
        refine List.pairwise_cons.mpr ⟨fun p hp => ?_, ih c' hc'⟩
        have := le_of_mem_stops h hc' p hp
        omega
  stay n c hc p hp := (le_of_mem_stops h hc p hp).2
  pass n c hc xs c' htimes := by
    refine ⟨getLast?_stops htimes, ?_⟩
    obtain ⟨-, -, hle⟩ := (keeps_times h n).ok hc htimes
    have := Nat.le_mul_of_pos_right n hm
    omega

end Reader

open Reader

/-! ## Numbers -/

theorem VbrWidth.keeps_readFrom (w : VbrWidth) {start : Nat} (hstart : start ≤ 8 * bytes.length)
    (shift : Nat) : Keeps bytes 1 (fun _ => True) (w.readFrom start shift) := by
  induction h : 64 - shift using Nat.strongRecOn generalizing shift with
  | ind n ih =>
    have hw := w.two_le
    rw [readFrom]
    refine ((keeps_number w.bits).imp (by omega : 1 ≤ w.bits) fun _ => id).bind (n := 0)
      fun piece _ => ?_
    dsimp only
    split
    · exact keeps_malformed hstart
    · split
      · exact keeps_pure trivial
      · exact (ih _ (by omega) _ rfl).before fun _ _ => keeps_pure trivial

theorem VbrWidth.keeps_read (w : VbrWidth) (hw : w.bits ≤ 64) :
    Keeps bytes 1 (· < 2 ^ 64) w.read := by
  have h : Keeps bytes 1 (fun _ => True) w.read :=
    keeps_position.before fun _ hstart => w.keeps_readFrom hstart 0
  exact (h.lt_of_refines (w.refines_read hw)).imp (Nat.le_refl 1) fun _ hn => hn.2

/-- A scalar takes up bits unless it is a literal. -/
theorem Scalar.keeps_read {s : Scalar} (hs : s.InRange) :
    Keeps bytes (if s.isLiteral then 0 else 1) (· < 2 ^ 64) s.read := by
  cases s with
  | literal value => exact keeps_pure hs
  | fixed width =>
    refine (keeps_number width).imp hs.1 fun n hn => ?_
    exact Nat.lt_of_lt_of_le hn (Nat.pow_le_pow_right (by decide) hs.2)
  | vbr width => exact width.keeps_read hs
  | character =>
    refine ((keeps_number 6).imp (by decide : 1 ≤ 6) fun _ => id).bind (n := 0) fun n hn => ?_
    exact keeps_pure (characterCode_lt n hn)

end CircuitQir.Bitstream
