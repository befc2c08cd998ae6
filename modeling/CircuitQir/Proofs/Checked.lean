/-!
# Computations that may fail

How a bind in `Except` goes on: with the value, if there is one, and nowhere otherwise. So a
computation whose outcome is known can be taken apart step by step.
-/

namespace CircuitQir

variable {ε α β : Type}

theorem bind_of_ok {x : Except ε α} {a : α} (h : x = .ok a) (f : α → Except ε β) :
    x >>= f = f a := by
  rw [h]
  rfl

theorem bind_of_error {x : Except ε α} {e : ε} (h : x = .error e) (f : α → Except ε β) :
    x >>= f = .error e := by
  rw [h]
  rfl

/-- What came to an end had a value on the way. -/
theorem bind_eq_ok {x : Except ε α} {f : α → Except ε β} {y : β} (h : x >>= f = .ok y) :
    ∃ a, x = .ok a ∧ f a = .ok y := by
  cases x with
  | error e => cases h
  | ok a => exact ⟨a, rfl, h⟩

/-- What failed did so on the way or at its end. -/
theorem bind_eq_error {x : Except ε α} {f : α → Except ε β} {e : ε} (h : x >>= f = .error e) :
    x = .error e ∨ ∃ a, x = .ok a ∧ f a = .error e := by
  cases x with
  | error e' =>
    obtain rfl := Except.error.inj h
    exact .inl rfl
  | ok a => exact .inr ⟨a, rfl, h⟩

theorem map_eq_ok {x : Except ε α} {f : α → β} {y : β} (h : f <$> x = .ok y) :
    ∃ a, x = .ok a ∧ f a = y := by
  cases x with
  | error e => cases h
  | ok a => exact ⟨a, rfl, Except.ok.inj h⟩

/-- Errors can be changed on the way or at the end. -/
theorem mapError_bind {ε' : Type} (f : ε → ε') (x : Except ε α) (g : α → Except ε β) :
    (x >>= g).mapError f = x.mapError f >>= fun a => (g a).mapError f := by
  cases x <;> rfl

theorem eq_ok_of_mapError {ε' : Type} {f : ε → ε'} {x : Except ε α} {a : α}
    (h : x.mapError f = .ok a) : x = .ok a := by
  cases x with
  | error e => cases h
  | ok b =>
    obtain rfl := Except.ok.inj h
    rfl

theorem exists_of_mapError {ε' : Type} {f : ε → ε'} {x : Except ε α} {e : ε'}
    (h : x.mapError f = .error e) : ∃ e', e = f e' := by
  cases x with
  | error e' => exact ⟨e', (Except.error.inj h).symm⟩
  | ok a => cases h

/-! ## Lists -/

theorem forM_ok {f : α → Except ε Unit} {xs : List α} (h : ∀ x ∈ xs, f x = .ok ()) :
    xs.forM f = .ok () := by
  induction xs with
  | nil => rfl
  | cons x xs ih =>
    show (f x >>= fun _ => xs.forM f) = _
    rw [bind_of_ok (h x (by simp))]
    exact ih fun y hy => h y (by simp [hy])

/-- Where every element is accepted, a list is. -/
theorem mapM_ok {f : α → Except ε β} {g : α → β} {xs : List α}
    (h : ∀ x ∈ xs, f x = .ok (g x)) : xs.mapM f = .ok (xs.map g) := by
  induction xs with
  | nil => rfl
  | cons x xs ih =>
    rw [List.mapM_cons, h x (by simp), ih fun y hy => h y (by simp [hy])]
    rfl

/-- A list with an element that is refused is refused. -/
theorem mapM_error {f : α → Except ε β} {x : α} (hx : ∃ e, f x = .error e) :
    ∀ {xs : List α}, x ∈ xs → ∃ e, xs.mapM f = .error e
  | y :: ys, hmem => by
    rw [List.mapM_cons]
    cases hy : f y with
    | error e => exact ⟨e, rfl⟩
    | ok z =>
      rcases List.mem_cons.mp hmem with rfl | hmem
      · obtain ⟨e, he⟩ := hx
        exact absurd (he.symm.trans hy) nofun
      · obtain ⟨e, he⟩ := mapM_error hx hmem
        exact ⟨e, bind_of_error he _⟩

/-- Where a list is accepted, what comes out of it comes from its elements. -/
theorem exists_of_mapM {f : α → Except ε β} : ∀ {xs : List α} {ys : List β},
    xs.mapM f = .ok ys → ∀ y ∈ ys, ∃ x ∈ xs, f x = .ok y
  | [], ys, h => by
    obtain rfl := Except.ok.inj h
    exact nofun
  | x :: xs, ys, h => by
    rw [List.mapM_cons] at h
    obtain ⟨y, hy, h⟩ := bind_eq_ok h
    obtain ⟨rest, hrest, h⟩ := bind_eq_ok h
    obtain rfl := Except.ok.inj h
    refine List.forall_mem_cons.mpr ⟨⟨x, List.mem_cons_self, hy⟩, fun z hz => ?_⟩
    obtain ⟨x', hx', hz⟩ := exists_of_mapM hrest z hz
    exact ⟨x', List.mem_cons_of_mem x hx', hz⟩

/-- What is known of every outcome is known of the list of outcomes. -/
theorem map_eq_of_mapM {γ : Type} {f : α → Except ε β} {g : β → γ} {g' : α → γ}
    (hg : ∀ x y, f x = .ok y → g y = g' x) :
    ∀ {xs : List α} {ys : List β}, xs.mapM f = .ok ys → ys.map g = xs.map g'
  | [], ys, h => by
    obtain rfl := Except.ok.inj h
    rfl
  | x :: xs, ys, h => by
    rw [List.mapM_cons] at h
    obtain ⟨y, hy, h⟩ := bind_eq_ok h
    obtain ⟨rest, hrest, h⟩ := bind_eq_ok h
    obtain rfl := Except.ok.inj h
    rw [List.map_cons, List.map_cons, hg x y hy, map_eq_of_mapM hg hrest]

/-- Where every element that one accepts is accepted by another with the same outcome, lists are. -/
theorem mapM_mono {f g : α → Except ε β} (hfg : ∀ x y, f x = .ok y → g x = .ok y) :
    ∀ {xs : List α} {ys : List β}, xs.mapM f = .ok ys → xs.mapM g = .ok ys
  | [], _, h => h
  | x :: xs, ys, h => by
    rw [List.mapM_cons] at h ⊢
    obtain ⟨y, hy, h⟩ := bind_eq_ok h
    obtain ⟨rest, hrest, h⟩ := bind_eq_ok h
    rw [bind_of_ok (hfg x y hy), bind_of_ok (mapM_mono hfg hrest)]
    exact h

/-- What every step of a fold keeps is kept by the fold. -/
theorem foldlM_invariant {f : β → α → Except ε β} {p : β → Prop}
    (hstep : ∀ b a b', p b → f b a = .ok b' → p b') :
    ∀ {xs : List α} {b b' : β}, p b → xs.foldlM f b = .ok b' → p b'
  | [], b, b', hb, h => by
    obtain rfl := Except.ok.inj h
    exact hb
  | x :: xs, b, b', hb, h => by
    rw [List.foldlM_cons] at h
    obtain ⟨b'', hb'', h⟩ := bind_eq_ok h
    exact foldlM_invariant hstep (hstep b x b'' hb hb'') h

/-- A fold fails if there is an element at which no step goes on. -/
theorem foldlM_error {f : β → α → Except ε β} {p : β → Prop}
    (hstep : ∀ b a b', p b → f b a = .ok b' → p b') {x : α}
    (hx : ∀ b, p b → ∃ e, f b x = .error e) :
    ∀ {xs : List α} {b : β}, p b → x ∈ xs → ∃ e, xs.foldlM f b = .error e
  | y :: ys, b, hb, hmem => by
    rw [List.foldlM_cons]
    cases hy : f b y with
    | error e => exact ⟨e, rfl⟩
    | ok b' =>
      rcases List.mem_cons.mp hmem with rfl | hmem
      · obtain ⟨e, he⟩ := hx b hb
        exact absurd (he.symm.trans hy) nofun
      · exact foldlM_error hstep hx (hstep b y b' hb hy) hmem

end CircuitQir
