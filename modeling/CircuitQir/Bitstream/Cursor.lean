import CircuitQir.Bits
import CircuitQir.Bitstream.Error
import CircuitQir.Bitstream.Field
/-!
# Reading bits

A `Cursor` is a position and the bits from there to the end of the input. A `Reader` moves a
cursor forward or stops with an error that names a position.

All readers of the library are `Forward`: what they leave is what lay before them less the bits
they passed. So positions never run past the end of the input, and a loop whose every round
passes at least one bit ends.
-/

namespace CircuitQir.Bitstream

/-- A place in a bitstream. -/
structure Cursor where
  position : Nat
  rest : List Bool
deriving DecidableEq, Repr

/-- A computation that reads from a bitstream. -/
abbrev Reader (α : Type) := StateT Cursor (Except Error) α

/-- The first `n` elements and what follows them, if there are as many. -/
def splitExactly? {α : Type} : Nat → List α → Option (List α × List α)
  | 0, xs => some ([], xs)
  | _ + 1, [] => none
  | n + 1, x :: xs => (splitExactly? n xs).map fun (front, rest) => (x :: front, rest)

namespace Reader

/-- Stops with a flaw found at the given position. -/
def malformed {α : Type} (bit : Nat) (flaw : Flaw) : Reader α :=
  throw (.malformed bit flaw)

/-- The current position. -/
def position : Reader Nat := return (← get).position

/-- The number in the next `width` bits, which must all be there. -/
def number (width : Nat) : Reader Nat := fun c =>
  match splitExactly? width c.rest with
  | some (front, rest) => .ok (Bits.toNat front, ⟨c.position + width, rest⟩)
  | none => .error (.endOfInput c.position)

/-- Passes over the bits up to the next word boundary. -/
def align : Reader Unit := do
  let _ ← number (padding (← position))

/-- Reads `n` things one after the other. -/
def times {α : Type} (r : Reader α) : Nat → Reader (List α)
  | 0 => return []
  | n + 1 => do
    let x ← r
    return x :: (← times r n)

/-! ## Readers only move forward -/

/-- Whenever the reader succeeds it has passed over `n` bits of the input, for some `n` of at
least `least`, and left all others. -/
def Forward {α : Type} (least : Nat) (r : Reader α) : Prop :=
  ∀ c x c', r c = .ok (x, c') →
    c.position + least ≤ c'.position ∧
      c'.position + c'.rest.length = c.position + c.rest.length

theorem splitExactly?_eq_some {α : Type} {n : Nat} {xs front rest : List α}
    (h : splitExactly? n xs = some (front, rest)) : xs = front ++ rest ∧ front.length = n := by
  induction n generalizing xs front with
  | zero =>
    simp only [splitExactly?, Option.some.injEq, Prod.mk.injEq] at h
    simp [← h.1, h.2]
  | succ n ih =>
    cases xs with
    | nil => simp [splitExactly?] at h
    | cons x xs =>
      simp only [splitExactly?, Option.map_eq_some_iff, Prod.mk.injEq] at h
      obtain ⟨⟨f, r⟩, hf, rfl, rfl⟩ := h
      have := ih hf
      simp [this.1, this.2]

theorem splitExactly?_append {α : Type} (xs ys : List α) :
    splitExactly? xs.length (xs ++ ys) = some (xs, ys) := by
  induction xs with
  | nil => rfl
  | cons x xs ih => simp [splitExactly?, ih]

theorem forward_pure {α : Type} (x : α) : Forward 0 (pure x) := by
  intro c y c' h
  cases h
  simp

theorem forward_throw {α : Type} (e : Error) (n : Nat) : Forward n (throw e : Reader α) :=
  fun _ _ _ h => nomatch h

theorem Forward.bind {α β : Type} {m n : Nat} {r : Reader α} {f : α → Reader β}
    (hr : Forward m r) (hf : ∀ x, Forward n (f x)) : Forward (m + n) (r >>= f) := by
  intro c y c' h
  change (r c >>= fun (x, c₁) => f x c₁) = _ at h
  cases hrc : r c with
  | error e => simp [hrc, Except.bind, Bind.bind] at h
  | ok p =>
    obtain ⟨x, c₁⟩ := p
    rw [hrc] at h
    have h₁ := hr c x c₁ hrc
    have h₂ := hf x c₁ y c' h
    omega

theorem Forward.mono {α : Type} {m n : Nat} {r : Reader α} (h : Forward m r) (hn : n ≤ m) :
    Forward n r := by
  intro c x c' hc
  have := h c x c' hc
  omega

theorem forward_number (width : Nat) : Forward width (number width) := by
  intro c x c' h
  unfold number at h
  split at h
  · rename_i front rest hs
    obtain ⟨hc, hl⟩ := splitExactly?_eq_some hs
    cases h
    simp [hc, hl]
    omega
  · exact nomatch h

theorem forward_position : Forward 0 position := by
  intro c x c' h
  cases h
  simp

theorem forward_get : Forward 0 (get : Reader Cursor) := by
  intro c x c' h
  cases h
  simp

theorem forward_align : Forward 0 align := by
  have := forward_position.bind fun p =>
    (forward_number (padding p)).mono (Nat.zero_le _) |>.bind fun _ => forward_pure ()
  exact this

theorem forward_times {α : Type} {r : Reader α} (h : Forward 0 r) (n : Nat) :
    Forward 0 (times r n) := by
  induction n with
  | zero => exact forward_pure _
  | succ n ih => exact h.bind fun _ => ih.bind fun _ => forward_pure _

end Reader

end CircuitQir.Bitstream
