import CircuitQir.Proofs.Checked
import Mathlib.Data.List.Induction
/-!
# Checks that go along a list

Many checks take the elements of a list one after the other and stop at the first one they refuse,
where what is asked of an element depends on the elements before it. Such a check is described by
what it goes on with and what it stops at (`Scans`), and this describes its outcome: it accepts a
list that is sound, and of any other it reports what is wrong with the first element that does not
follow those before it soundly (`Scans.eq_ok_iff`, `Scans.eq_error_iff`).
-/

namespace CircuitQir

variable {α β ε : Type}

/-- A check goes along a list. It takes what it has gone past and what is left, and as long as the
first is sound, it goes past an element behind which it still is, and stops at any other with a
flaw of that element. -/
structure Scans (scan : List α → List α → Except ε β) (Sound : List α → Prop)
    (Flaw : List α → α → ε → Prop) : Prop where
  nil : Sound []
  of_concat : ∀ {before x}, Sound (before ++ [x]) → Sound before
  pass : ∀ {before x} rest, Sound (before ++ [x]) →
    scan before (x :: rest) = scan (before ++ [x]) rest
  stop : ∀ {before x e} rest, Sound before → Flaw before x e → scan before (x :: rest) = .error e
  sound_or_flaw : ∀ {before} x, Sound before → Sound (before ++ [x]) ∨ ∃ e, Flaw before x e
  accept : ∀ {xs}, Sound xs → ∃ y, scan xs [] = .ok y

namespace Scans

variable {scan : List α → List α → Except ε β} {Sound : List α → Prop}
  {Flaw : List α → α → ε → Prop}

theorem of_append (h : Scans scan Sound Flaw) {before xs : List α} (hsound : Sound (before ++ xs)) :
    Sound before := by
  induction xs using List.reverseRecOn with
  | nil => rwa [List.append_nil] at hsound
  | append_singleton xs x ih =>
    rw [← List.append_assoc] at hsound
    exact ih (h.of_concat hsound)

/-- Sound elements are gone past. -/
theorem append (h : Scans scan Sound Flaw) (rest : List α) : ∀ {xs before : List α},
    Sound (before ++ xs) → scan before (xs ++ rest) = scan (before ++ xs) rest
  | [], before, _ => by rw [List.append_nil, List.nil_append]
  | x :: xs, before, hsound => by
    rw [List.append_cons] at hsound ⊢
    rw [List.cons_append, h.pass _ (h.of_append hsound), h.append rest hsound]

/-- Unless a list is sound, one element is the first with a flaw. -/
theorem sound_or_first (h : Scans scan Sound Flaw) (xs : List α) :
    Sound xs ∨ ∃ before x after e, xs = before ++ x :: after ∧ Sound before ∧
      Flaw before x e := by
  induction xs using List.reverseRecOn with
  | nil => exact .inl h.nil
  | append_singleton xs x ih =>
    rcases ih with hsound | ⟨before, y, after, e, rfl, hbefore, hflaw⟩
    · rcases h.sound_or_flaw x hsound with hsound' | ⟨e, hflaw⟩
      · exact .inl hsound'
      · exact .inr ⟨xs, x, [], e, rfl, hsound, hflaw⟩
    · exact .inr ⟨before, y, after ++ [x], e, by simp, hbefore, hflaw⟩

theorem of_first (h : Scans scan Sound Flaw) {before after : List α} {x : α} {e : ε}
    (hbefore : Sound before) (hflaw : Flaw before x e) :
    scan [] (before ++ x :: after) = .error e := by
  have hpassed : scan [] (before ++ x :: after) = scan before (x :: after) := h.append _ hbefore
  rw [hpassed]
  exact h.stop after hbefore hflaw

/-- The check accepts the lists that are sound. -/
theorem eq_ok_iff (h : Scans scan Sound Flaw) {xs : List α} {y : β} :
    scan [] xs = .ok y ↔ Sound xs ∧ scan xs [] = .ok y := by
  have hend (hsound : Sound xs) : scan [] xs = scan xs [] := by
    have hpassed : scan [] (xs ++ []) = scan xs [] := h.append [] hsound
    rwa [List.append_nil] at hpassed
  constructor
  · intro hok
    rcases h.sound_or_first xs with hsound | ⟨before, x, after, e, rfl, hbefore, hflaw⟩
    · exact ⟨hsound, hend hsound ▸ hok⟩
    · rw [h.of_first hbefore hflaw] at hok
      cases hok
  · rintro ⟨hsound, hok⟩
    rw [hend hsound, hok]

/-- The check reports the first flaw there is. -/
theorem eq_error_iff (h : Scans scan Sound Flaw) {xs : List α} {e : ε} :
    scan [] xs = .error e ↔ ∃ before x after, xs = before ++ x :: after ∧ Sound before ∧
      Flaw before x e := by
  constructor
  · intro herror
    rcases h.sound_or_first xs with hsound | ⟨before, x, after, e', rfl, hbefore, hflaw⟩
    · obtain ⟨y, hy⟩ := h.accept hsound
      rw [h.eq_ok_iff.mpr ⟨hsound, hy⟩] at herror
      cases herror
    · rw [h.of_first hbefore hflaw] at herror
      obtain rfl := Except.error.inj herror
      exact ⟨before, x, after, rfl, hbefore, hflaw⟩
  · rintro ⟨before, x, after, rfl, hbefore, hflaw⟩
    exact h.of_first hbefore hflaw

end Scans

/-- A check that asks the same of every element goes along a list. -/
theorem scans_forM (f : α → Except ε Unit) :
    Scans (fun _ rest => rest.forM f) (fun xs => ∀ x ∈ xs, f x = .ok ())
      (fun _ x e => f x = .error e) where
  nil := nofun
  of_concat h := fun x hx => h x (List.mem_append_left _ hx)
  pass rest h := bind_of_ok (h _ (by simp)) fun _ => rest.forM f
  stop rest _ hflaw := bind_of_error hflaw fun _ => rest.forM f
  sound_or_flaw x h := by
    cases hx : f x with
    | ok u => exact .inl (List.forall_mem_append.mpr ⟨h, List.forall_mem_singleton.mpr hx⟩)
    | error e => exact .inr ⟨e, rfl⟩
  accept _ := ⟨(), rfl⟩

end CircuitQir
