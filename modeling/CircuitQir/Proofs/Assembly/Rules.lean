import CircuitQir.Assembly.Parser
import CircuitQir.Assembly.Printer
import CircuitQir.Proofs.Text.Runs
/-!
# Reading what was written

How the rules for parts of a line read a text that starts with such a part. What a rule takes may
depend on what follows: a run of characters has to end there (`Stops`), and a list must not go on.
-/

namespace CircuitQir.Assembly.Rule

variable {α β : Type}

/-! ## Combining rules -/

theorem bind_ok {r : Rule α} {f : α → Rule β} {line rest : List Char} {x : α}
    (h : r line = .ok (x, rest)) : (r >>= f) line = f x rest := by
  show (r line >>= fun (x, rest) => f x rest) = _
  rw [h]
  rfl

theorem bind_error {r : Rule α} {line at_ : List Char} (f : α → Rule β)
    (h : r line = .error at_) : (r >>= f) line = .error at_ := by
  show (r line >>= fun (x, rest) => f x rest) = _
  rw [h]
  rfl

theorem either_ok {r : Rule α} (s : Rule α) {line rest : List Char} {x : α}
    (h : r line = .ok (x, rest)) : either r s line = .ok (x, rest) := by
  rw [either, h]

theorem either_error {r : Rule α} (s : Rule α) {line at_ : List Char}
    (h : r line = .error at_) : either r s line = s line := by
  rw [either, h]

theorem choice_ok {r : Rule α} (rs : List (Rule α)) {line rest : List Char} {x : α}
    (h : r line = .ok (x, rest)) : choice (r :: rs) line = .ok (x, rest) := by
  cases rs with
  | nil => exact h
  | cons s rs => exact either_ok _ h

theorem choice_error {r : Rule α} (s : Rule α) (rs : List (Rule α)) {line at_ : List Char}
    (h : r line = .error at_) : choice (r :: s :: rs) line = choice (s :: rs) line :=
  either_error _ h

theorem optional_ok {r : Rule α} {line rest : List Char} {x : α}
    (h : r line = .ok (x, rest)) : optional r line = .ok (some x, rest) := by
  rw [optional, h]

theorem optional_error {r : Rule α} {line at_ : List Char} (h : r line = .error at_) :
    optional r line = .ok (none, line) := by
  rw [optional, h]

/-! ## Fixed text -/

theorem afterPrefix?_append (cs rest : List Char) : afterPrefix? cs (cs ++ rest) = some rest := by
  induction cs with
  | nil => rfl
  | cons c cs ih => rw [List.cons_append, afterPrefix?, if_pos rfl, ih]

theorem literal_append (text : String) (rest : List Char) :
    literal text (text.toList ++ rest) = .ok ((), rest) := by
  rw [literal, afterPrefix?_append]

theorem literal_error {text : String} {line : List Char}
    (h : afterPrefix? text.toList line = none) : literal text line = .error line := by
  rw [literal, h]

/-! ## Runs of characters -/

theorem many_append {p : Char → Bool} {cs rest : List Char} (hcs : ∀ c ∈ cs, p c = true)
    (hrest : Stops p rest) : many p (cs ++ rest) = .ok (cs, rest) := by
  rw [many, takeWhile_stops hcs hrest, dropWhile_stops hcs hrest]

theorem many1_append {p : Char → Bool} {cs rest : List Char} (hne : cs ≠ [])
    (hcs : ∀ c ∈ cs, p c = true) (hrest : Stops p rest) :
    many1 p (cs ++ rest) = .ok (cs, rest) := by
  rw [many1, takeWhile_stops hcs hrest, dropWhile_stops hcs hrest, if_neg (by simpa using hne)]

/-! ## Numbers -/

theorem digits_toDigits (n : Nat) {rest : List Char} (h : Stops Char.isDigit rest) :
    digits (Nat.toDigits 10 n ++ rest) = .ok (Nat.toDigits 10 n, rest) := by
  by_cases hzero : n = 0
  · subst hzero
    rfl
  · obtain ⟨c, cs, hdigits, hc⟩ := head_toDigits (Nat.pos_of_ne_zero hzero)
    have hall := isDigit_of_mem_toDigits (n := n)
    rw [hdigits] at hall ⊢
    rw [← many1_append (List.cons_ne_nil c cs) hall h]
    unfold digits
    split
    · rename_i heq
      rw [List.cons_append, List.cons.injEq] at heq
      exact absurd heq.1 hc
    · rfl

theorem natural_toDigits {n bound : Nat} (hn : n < bound) {rest : List Char}
    (h : Stops Char.isDigit rest) :
    natural bound ((Numeral.ofNat n).toList ++ rest) = .ok (n, rest) := by
  rw [Numeral.ofNat, String.toList_ofList, natural, digits_toDigits n h]
  dsimp only
  rw [Numeral.value_toDigits, if_pos hn]

theorem natural_error {n bound : Nat} (hn : bound ≤ n) {rest : List Char}
    (h : Stops Char.isDigit rest) :
    ∃ at_, natural bound ((Numeral.ofNat n).toList ++ rest) = .error at_ := by
  rw [Numeral.ofNat, String.toList_ofList, natural, digits_toDigits n h]
  dsimp only
  rw [Numeral.value_toDigits, if_neg (Nat.not_lt.mpr hn)]
  exact ⟨_, rfl⟩

theorem integer_of_digits {bound n : Nat} {v : Int} (line signs : List Char)
    {ds rest : List Char} (hsigns : (line.take 1).filter isSign = signs)
    (hdigits : digits (line.drop signs.length) = .ok (ds, rest)) (hn : Numeral.value ds = n)
    (hv : (if signs = ['-'] then -(n : Int) else n) = v) :
    integer bound line =
      if !signs.isEmpty && ((n : Int) == 0) then .error line
      else if -(bound : Int) ≤ v ∧ v < bound then .ok (v, rest)
      else .error line := by
  subst hn hv
  unfold integer
  dsimp only
  rw [hsigns, hdigits]

theorem isSign_of_isDigit {c : Char} (h : c.isDigit = true) : isSign c = false := by
  simp only [isSign, Bool.or_eq_false_iff, beq_eq_false_iff_ne]
  constructor <;> rintro rfl <;> revert h <;> decide

theorem integer_ofInt {v : Int} {bound : Nat} (hl : -bound ≤ v) (hu : v < bound)
    {rest : List Char} (h : Stops Char.isDigit rest) :
    integer bound ((Numeral.ofInt v).toList ++ rest) = .ok (v, rest) := by
  have hdigits := digits_toDigits v.natAbs h
  have hvalue := Numeral.value_toDigits v.natAbs
  rw [Numeral.ofInt, Numeral.ofNat, String.toList_append, String.toList_ofList,
    List.append_assoc]
  by_cases hneg : v < 0
  · have hline : (if v < 0 then "-" else "").toList ++ (Nat.toDigits 10 v.natAbs ++ rest) =
        '-' :: (Nat.toDigits 10 v.natAbs ++ rest) := by
      rw [if_pos hneg]
      rfl
    have hv : -(v.natAbs : Int) = v := by omega
    rw [hline, integer_of_digits ('-' :: (Nat.toDigits 10 v.natAbs ++ rest)) ['-'] rfl hdigits
      hvalue hv, if_neg, if_pos ⟨hl, hu⟩]
    simp only [List.isEmpty_cons, Bool.not_false, Bool.true_and, beq_iff_eq]
    omega
  · have hline : (if v < 0 then "-" else "").toList ++ (Nat.toDigits 10 v.natAbs ++ rest) =
        Nat.toDigits 10 v.natAbs ++ rest := by
      rw [if_neg hneg]
      rfl
    have hsigns : ((Nat.toDigits 10 v.natAbs ++ rest).take 1).filter isSign = [] := by
      cases hds : Nat.toDigits 10 v.natAbs with
      | nil => exact absurd hds Nat.toDigits_ne_nil
      | cons c ds =>
        have hc := isDigit_of_mem_toDigits (n := v.natAbs) c (by simp [hds])
        simp [isSign_of_isDigit hc]
    have hv : (v.natAbs : Int) = v := by omega
    rw [hline, integer_of_digits _ [] hsigns hdigits hvalue hv, if_neg (by simp),
      if_pos ⟨hl, hu⟩]

theorem integer_int64 (v : Int64) {rest : List Char} (h : Stops Char.isDigit rest) :
    integer (2 ^ 63) ((Numeral.ofInt v.toInt).toList ++ rest) = .ok (v.toInt, rest) :=
  integer_ofInt v.le_toInt v.toInt_lt h

theorem integer_int32 (v : Int32) {rest : List Char} (h : Stops Char.isDigit rest) :
    integer (2 ^ 31) ((Numeral.ofInt v.toInt).toList ++ rest) = .ok (v.toInt, rest) :=
  integer_ofInt v.le_toInt v.toInt_lt h

/-! ## Lists -/

theorem more_ok {separator : String} {item : Rule α} {line rest : List Char} {x : α}
    (h : (do literal separator; item : Rule α) line = .ok (x, rest))
    (hlt : rest.length < line.length) :
    more separator item line =
      (x :: (more separator item rest).1, (more separator item rest).2) := by
  rw [more, h]
  exact if_pos hlt

/-- Without a separator that takes up text, a list would go on for ever. -/
theorem more_stuck {separator : String} {item : Rule α} {line rest : List Char} {x : α}
    (h : (do literal separator; item : Rule α) line = .ok (x, rest))
    (hlt : ¬ rest.length < line.length) : more separator item line = ([], line) := by
  rw [more, h]
  exact if_neg hlt

theorem more_error {separator : String} {item : Rule α} {line at_ : List Char}
    (h : (do literal separator; item : Rule α) line = .error at_) :
    more separator item line = ([], line) := by
  rw [more, h]

theorem separated_ok {separator : String} {item : Rule α} {line rest : List Char} {x : α}
    (h : item line = .ok (x, rest)) : separated separator item line =
      .ok (x :: (more separator item rest).1, (more separator item rest).2) := by
  rw [separated, h]

theorem separated_error {separator : String} {item : Rule α} {line at_ : List Char}
    (h : item line = .error at_) : separated separator item line = .ok ([], line) := by
  rw [separated, h]

/-- The items that were written behind separators. -/
def following (separator : String) (text : α → String) (xs : List α) : List Char :=
  xs.flatMap fun x => separator.toList ++ (text x).toList

theorem joined_cons (separator : String) (text : α → String) (x : α) (xs : List α) :
    (joined separator ((x :: xs).map text)).toList =
      (text x).toList ++ following separator text xs := by
  induction xs generalizing x with
  | nil => simp [joined, following]
  | cons y xs ih =>
    show (text x ++ separator ++ joined separator ((y :: xs).map text)).toList = _
    rw [String.toList_append, String.toList_append, ih y, following, following,
      List.flatMap_cons]
    simp

section Lists

variable {separator : String} {item : Rule α} {text : α → String} {rest at_ : List Char}

/-- Items behind separators are read until one is missing. -/
theorem more_following {follows : List Char → Prop} : ∀ {xs : List α},
    (∀ x ∈ xs, ∀ rest, follows rest → item ((text x).toList ++ rest) = .ok (x, rest)) →
    (∀ line, follows (separator.toList ++ line)) → separator ≠ "" → follows rest →
    (do literal separator; item : Rule α) rest = .error at_ →
    more separator item (following separator text xs ++ rest) = (xs, rest)
  | [], _, _, _, _, hend => more_error hend
  | x :: xs, hitem, hseparator, hne, hrest, hend => by
    have hnext : more separator item (following separator text xs ++ rest) = (xs, rest) :=
      more_following (fun y hy => hitem y (by simp [hy])) hseparator hne hrest hend
    have hfollows : follows (following separator text xs ++ rest) := by
      cases xs with
      | nil => exact hrest
      | cons y xs =>
        rw [following, List.flatMap_cons, List.append_assoc, List.append_assoc]
        exact hseparator _
    have hline : following separator text (x :: xs) ++ rest =
        separator.toList ++ ((text x).toList ++ (following separator text xs ++ rest)) := by
      simp [following]
    have hpos : 0 < separator.toList.length := by
      rw [List.length_pos_iff]
      simpa using hne
    rw [hline, more_ok ((bind_ok (literal_append _ _)).trans (hitem x (by simp) _ hfollows)),
      hnext]
    simp only [List.length_append]
    omega

/-- A list that was written with separators is read back if nothing that follows goes on with
it. -/
theorem separated_joined (follows : List Char → Prop) {xs : List α}
    (hitem : ∀ x ∈ xs, ∀ rest, follows rest → item ((text x).toList ++ rest) = .ok (x, rest))
    (hseparator : ∀ line, follows (separator.toList ++ line)) (hne : separator ≠ "")
    (hrest : follows rest) (hend : (do literal separator; item : Rule α) rest = .error at_)
    (hempty : ∃ at_, item rest = .error at_) :
    separated separator item ((joined separator (xs.map text)).toList ++ rest) =
      .ok (xs, rest) := by
  cases xs with
  | nil =>
    obtain ⟨at_, herror⟩ := hempty
    exact separated_error herror
  | cons x xs =>
    have hfollows : follows (following separator text xs ++ rest) := by
      cases xs with
      | nil => exact hrest
      | cons y xs =>
        rw [following, List.flatMap_cons, List.append_assoc, List.append_assoc]
        exact hseparator _
    rw [joined_cons, List.append_assoc, separated_ok (hitem x (by simp) _ hfollows),
      more_following (fun y hy => hitem y (by simp [hy])) hseparator hne hrest hend]

end Lists

end CircuitQir.Assembly.Rule

namespace CircuitQir.Assembly

/-! ## Whole lines -/

theorem whole_eq_ok_iff {α : Type} {r : Rule α} {line : List Char} {x : α} :
    whole r line = .ok x ↔ r line = .ok (x, []) := by
  constructor
  · intro h
    unfold whole at h
    split at h
    · rename_i hr
      obtain rfl := Except.ok.inj h
      exact hr
    · cases h
    · cases h
  · intro h
    unfold whole
    rw [h]

end CircuitQir.Assembly
