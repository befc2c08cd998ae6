import CircuitQir.Proofs.Assembly.Languages
/-!
# The grammar of numbers

A rule for a number reads digits as far as they go, looks for a point and a power of ten only behind
them, and for the name of a double only where there are no digits at all. The grammar of numbers
only says how they are put together. Both give the same numbers where nothing follows that could be
part of one.
-/

namespace CircuitQir.Assembly

/-- Whether a power of ten starts with a character. -/
def Rule.startsPower (c : Char) : Bool := c == 'e' || c == 'E'

theorem Rule.startsPower_iff {c : Char} : startsPower c = true ↔ c = 'e' ∨ c = 'E' := by
  simp [startsPower]

namespace Grammar

/-- Digits that do not start with a zero. -/
def nonzero : Grammar (List Char) := fun text ds =>
  many1 Char.isDigit text ds ∧ ds.head? ≠ some '0'

/-- The digits of a number without needless zeros. -/
def digits : Grammar (List Char) := choice [word "0" ['0'], nonzero]

/-- A number below a bound. -/
def natural (bound : Nat) : Grammar Nat := fun text n =>
  n < bound ∧ (return Numeral.value (← digits) : Grammar Nat) text n

/-- A signed number from `-bound` up to below `bound`. Zero takes no sign. -/
def integer (bound : Nat) : Grammar Int := fun text v =>
  (-bound ≤ v ∧ v < bound) ∧ choice
    [ (do return (Numeral.value (← digits) : Int)),
      (do literal "+"; return (Numeral.value (← nonzero) : Int)),
      (do literal "-"; return -(Numeral.value (← nonzero) : Int)) ] text v

/-- Whether a sign, if there is one, is a minus. -/
def sign : Grammar Bool := choice [word "-" true, word "+" false, return false]

/-- Digits with a point before, between or behind them: those before it, and those behind. -/
def pointed : Grammar (List Char × List Char) :=
  choice
    [ (do
        let whole ← many1 Char.isDigit
        let fraction ← optional (do literal "."; many Char.isDigit)
        return (whole, fraction.getD [])),
      (do
        literal "."
        return ([], ← many1 Char.isDigit)) ]

/-- A number that a power of ten is raised to. -/
def exponent : Grammar Int := do
  let negative ← sign
  let n : Int := Numeral.value (← many1 Char.isDigit)
  return if negative then -n else n

/-- A power of ten behind a number. Its letter has to be followed by digits. -/
def power : Grammar Int :=
  choice [(do choice [literal "e", literal "E"]; exponent), return 0]

/-- A decimal number, rounded to the nearest double. -/
def decimal : Grammar Double := do
  let negative ← sign
  let (whole, fraction) ← pointed
  let p ← power
  return Decimal.toDouble negative ⟨Numeral.value (whole ++ fraction), p - fraction.length⟩

/-- An infinity of either sign, under a name. -/
def infinite (t : String) : Grammar Double := do
  let negative ← sign
  keyword t
  return Double.infinity negative

/-- A decimal number, `nan`, or an infinity of either sign. -/
def float : Grammar Double :=
  choice
    [ decimal,
      (do keyword "nan"; return Double.nan),
      infinite "infinity",
      infinite "inf" ]

/-! ## Texts of numbers -/

section Texts

variable {text : List Char}

theorem digits_iff {ds : List Char} :
    digits text ds ↔ (text = ['0'] ∧ ds = ['0']) ∨ nonzero text ds := by
  simp [digits]

theorem natural_iff {bound n : Nat} : natural bound text n ↔
    n < bound ∧ ∃ ds, digits text ds ∧ n = Numeral.value ds :=
  and_congr_right fun _ => map_iff

theorem integer_iff {bound : Nat} {v : Int} : integer bound text v ↔ (-bound ≤ v ∧ v < bound) ∧
    ((∃ ds, digits text ds ∧ v = Numeral.value ds) ∨
      (∃ back, text = '+' :: back ∧ ∃ ds, nonzero back ds ∧ v = Numeral.value ds) ∨
        ∃ back, text = '-' :: back ∧ ∃ ds, nonzero back ds ∧ v = -(Numeral.value ds : Int)) := by
  simp [integer, literal_bind_iff]

theorem sign_iff {b : Bool} : sign text b ↔
    (text = ['-'] ∧ b = true) ∨ (text = ['+'] ∧ b = false) ∨ (text = [] ∧ b = false) := by
  simp [sign]

theorem power_iff {p : Int} : power text p ↔
    (∃ c back, text = c :: back ∧ Rule.startsPower c = true ∧ exponent back p) ∨
      (text = [] ∧ p = 0) := by
  refine either_iff.trans (or_congr_left ⟨?_, ?_⟩)
  · rintro ⟨_, front, back, rfl, hletter, hback⟩
    rcases either_iff.mp hletter with rfl | rfl
    · exact ⟨'e', back, rfl, rfl, hback⟩
    · exact ⟨'E', back, rfl, rfl, hback⟩
  · rintro ⟨c, back, rfl, hc, hback⟩
    refine ⟨(), [c], back, rfl, either_iff.mpr ?_, hback⟩
    rcases Rule.startsPower_iff.mp hc with rfl | rfl
    · exact .inl rfl
    · exact .inr rfl

end Texts

end Grammar

namespace Rule

/-! ## Integers -/

theorem value_ne_zero {c : Char} {cs : List Char} (hc : c.isDigit = true) (hzero : c ≠ '0') :
    Numeral.value (c :: cs) ≠ 0 := by
  have hdigit := Char.isDigit_iff_toNat.mp hc
  have hne : c.toNat ≠ '0'.toNat := fun h => hzero (Char.toNat_inj.mp h)
  have hpos : 0 < 10 ^ cs.length * (10 * 0 + (c.toNat - '0'.toNat)) :=
    Nat.mul_pos (Nat.pow_pos (by decide)) (by omega)
  rw [Numeral.value, Nat.ofDigitChars_cons, Nat.ofDigitChars_eq_ofDigitChars_zero]
  omega

theorem digits_zero (rest : List Char) : digits ('0' :: rest) = .ok (['0'], rest) := rfl

theorem digits_eq_many1 {line : List Char} (h : line.head? ≠ some '0') :
    digits line = many1 Char.isDigit line := by
  unfold digits
  split
  · exact absurd rfl h
  · rfl

theorem recognizes_digits : digits.Recognizes .digits (Stops Char.isDigit) := by
  constructor
  · intro line ds rest heq
    by_cases hzero : line.head? = some '0'
    · obtain ⟨tail, rfl⟩ := List.head?_eq_some_iff.mp hzero
      rw [digits_zero] at heq
      obtain ⟨rfl, rfl⟩ := Prod.mk.inj (Except.ok.inj heq)
      exact ⟨['0'], rfl, Grammar.digits_iff.mpr (.inl ⟨rfl, rfl⟩)⟩
    · rw [digits_eq_many1 hzero] at heq
      obtain ⟨front, rfl, hne, rfl, hdigits⟩ := (recognizes_many1 Char.isDigit).sound heq
      refine ⟨front, rfl, Grammar.digits_iff.mpr (.inr ⟨⟨hne, rfl, hdigits⟩, ?_⟩)⟩
      rwa [List.head?_append_of_ne_nil _ hne] at hzero
  · intro text ds rest h hrest
    rcases Grammar.digits_iff.mp h with ⟨rfl, rfl⟩ | ⟨⟨hne, rfl, hdigits⟩, hzero⟩
    · exact digits_zero rest
    · rw [digits_eq_many1 (by rwa [List.head?_append_of_ne_nil _ hne])]
      exact (recognizes_many1 Char.isDigit).complete ⟨hne, rfl, hdigits⟩ hrest

theorem recognizes_natural (bound : Nat) :
    (natural bound).Recognizes (.natural bound) (Stops Char.isDigit) := by
  constructor
  · intro line n rest heq
    unfold natural at heq
    split at heq
    · rename_i ds rest' hdigits
      split at heq
      · rename_i hn
        obtain ⟨rfl, rfl⟩ := Prod.mk.inj (Except.ok.inj heq)
        obtain ⟨front, hline, hfront⟩ := recognizes_digits.sound hdigits
        exact ⟨front, hline, Grammar.natural_iff.mpr ⟨hn, ds, hfront, rfl⟩⟩
      · cases heq
    · cases heq
  · intro text n rest h hrest
    obtain ⟨hn, ds, hds, rfl⟩ := Grammar.natural_iff.mp h
    rw [natural, recognizes_digits.complete hds hrest]
    exact if_pos hn

theorem value_nonzero {text ds : List Char} (h : Grammar.nonzero text ds) :
    Numeral.value ds ≠ 0 := by
  obtain ⟨⟨hne, -, hdigits⟩, hzero⟩ := h
  cases ds with
  | nil => exact absurd rfl hne
  | cons c cs =>
    exact value_ne_zero (hdigits c List.mem_cons_self) fun hc => hzero (congrArg some hc)

/-- Digits with a value other than zero do not start with a zero. -/
theorem nonzero_of_digits {text ds : List Char} (h : Grammar.digits text ds)
    (hvalue : Numeral.value ds ≠ 0) : Grammar.nonzero text ds := by
  rcases Grammar.digits_iff.mp h with ⟨-, rfl⟩ | hnonzero
  · exact absurd rfl hvalue
  · exact hnonzero

theorem head_many1 {p : Char → Bool} {text cs : List Char} (h : Grammar.many1 p text cs) :
    ∃ c tail, text = c :: tail ∧ p c = true := by
  obtain ⟨hne, rfl, hcs⟩ := h
  obtain ⟨c, tail, rfl⟩ := List.exists_cons_of_ne_nil hne
  exact ⟨c, tail, rfl, hcs c List.mem_cons_self⟩

theorem head_digits {text ds : List Char} (h : Grammar.digits text ds) :
    ∃ c tail, text = c :: tail ∧ c.isDigit = true := by
  rcases Grammar.digits_iff.mp h with ⟨rfl, -⟩ | ⟨hmany, -⟩
  · exact ⟨'0', [], rfl, rfl⟩
  · exact head_many1 hmany

theorem exists_of_not_stops {p : Char → Bool} {line : List Char} (h : ¬ Stops p line) :
    ∃ c tail, line = c :: tail ∧ p c = true := by
  cases line with
  | nil => exact absurd (stops_nil p) h
  | cons c tail => exact ⟨c, tail, rfl, by simpa using mt stops_cons h⟩

theorem signs_stops {line : List Char} (h : Stops isSign line) :
    (line.take 1).filter isSign = [] := by
  cases line with
  | nil => rfl
  | cons c tail => simp [h c rfl]

theorem signs_cons {c : Char} (h : isSign c = true) (tail : List Char) :
    ((c :: tail).take 1).filter isSign = [c] := by simp [h]

/-- A sign is read off, and then digits, which are not zero behind a sign. -/
theorem integer_eq_ok_iff {bound : Nat} {line rest : List Char} {v : Int} :
    integer bound line = .ok (v, rest) ↔ ∃ ds,
      digits (line.drop ((line.take 1).filter isSign).length) = .ok (ds, rest) ∧
        ((line.take 1).filter isSign = [] ∨ Numeral.value ds ≠ 0) ∧
          (if (line.take 1).filter isSign = ['-'] then -(Numeral.value ds : Int)
            else Numeral.value ds) = v ∧ -bound ≤ v ∧ v < bound := by
  constructor
  · intro h
    cases hdigits : digits (line.drop ((line.take 1).filter isSign).length) with
    | error at_ =>
      unfold integer at h
      dsimp only at h
      rw [hdigits] at h
      cases h
    | ok result =>
      obtain ⟨ds, rest'⟩ := result
      generalize hvalue : (if (line.take 1).filter isSign = ['-'] then -(Numeral.value ds : Int)
        else Numeral.value ds) = v'
      rw [integer_of_digits line _ rfl hdigits rfl hvalue] at h
      split at h
      · cases h
      · rename_i hzero
        split at h
        · rename_i hv
          obtain ⟨rfl, rfl⟩ := Prod.mk.inj (Except.ok.inj h)
          exact ⟨ds, rfl, by simpa [or_iff_not_imp_left] using hzero, hvalue, hv⟩
        · cases h
  · rintro ⟨ds, hdigits, hzero, hvalue, hv⟩
    rw [integer_of_digits line _ rfl hdigits rfl hvalue, if_neg, if_pos hv]
    simpa [or_iff_not_imp_left] using hzero

theorem recognizes_integer (bound : Nat) :
    (integer bound).Recognizes (.integer bound) (Stops Char.isDigit) := by
  constructor
  · intro line v rest heq
    obtain ⟨ds, hdigits, hzero, hv, hrange⟩ := integer_eq_ok_iff.mp heq
    obtain ⟨front, hline, hfront⟩ := recognizes_digits.sound hdigits
    by_cases hsign : Stops isSign line
    · rw [signs_stops hsign] at hline hv
      exact ⟨front, hline, Grammar.integer_iff.mpr ⟨hrange, .inl ⟨ds, hfront, hv.symm⟩⟩⟩
    · obtain ⟨c, tail, rfl, hc⟩ := exists_of_not_stops hsign
      rw [signs_cons hc] at hline hv hzero
      have hnonzero := nonzero_of_digits hfront (hzero.resolve_left nofun)
      refine ⟨c :: front, congrArg _ hline, Grammar.integer_iff.mpr ⟨hrange, .inr ?_⟩⟩
      obtain rfl | rfl : c = '+' ∨ c = '-' := by simpa [isSign] using hc
      · exact .inl ⟨front, rfl, ds, hnonzero, hv.symm⟩
      · exact .inr ⟨front, rfl, ds, hnonzero, hv.symm⟩
  · intro text v rest h hrest
    obtain ⟨hv, hg⟩ := Grammar.integer_iff.mp h
    refine integer_eq_ok_iff.mpr ?_
    rcases hg with ⟨ds, hds, rfl⟩ | ⟨back, rfl, ds, hds, rfl⟩ | ⟨back, rfl, ds, hds, rfl⟩
    · obtain ⟨c, tail, rfl, hc⟩ := head_digits hds
      have hsigns : ((c :: tail ++ rest).take 1).filter isSign = [] :=
        signs_stops (stops_cons (isSign_of_isDigit hc))
      rw [hsigns]
      exact ⟨ds, recognizes_digits.complete hds hrest, .inl rfl, rfl, hv⟩
    · exact ⟨ds, recognizes_digits.complete (Grammar.digits_iff.mpr (.inr hds)) hrest,
        .inr (value_nonzero hds), rfl, hv⟩
    · exact ⟨ds, recognizes_digits.complete (Grammar.digits_iff.mpr (.inr hds)) hrest,
        .inr (value_nonzero hds), rfl, hv⟩

theorem sign_stops {line : List Char} (h : Stops isSign line) : sign line = .ok (false, line) :=
  @sign_append false line h

theorem recognizes_sign : sign.Recognizes .sign (Stops isSign) := by
  constructor
  · intro line b rest heq
    unfold sign at heq
    split at heq
    all_goals obtain ⟨rfl, rfl⟩ := Prod.mk.inj (Except.ok.inj heq)
    · exact ⟨['-'], rfl, Grammar.sign_iff.mpr (.inl ⟨rfl, rfl⟩)⟩
    · exact ⟨['+'], rfl, Grammar.sign_iff.mpr (.inr (.inl ⟨rfl, rfl⟩))⟩
    · exact ⟨[], rfl, Grammar.sign_iff.mpr (.inr (.inr ⟨rfl, rfl⟩))⟩
  · intro text b rest h hrest
    rcases Grammar.sign_iff.mp h with ⟨rfl, rfl⟩ | ⟨rfl, rfl⟩ | ⟨rfl, rfl⟩
    · rfl
    · rfl
    · exact sign_stops hrest

/-! ## Doubles -/

/-- Whether a number without its sign may start with a character. -/
def isPointed (c : Char) : Bool := c.isDigit || c == '.'

theorem isDigit_of_isPointed {c : Char} (h : isPointed c = false) : c.isDigit = false :=
  (Bool.or_eq_false_iff.mp h).1

/-- A point with digits behind it. -/
theorem recognizes_fraction :
    (do literal "."; many Char.isDigit : Rule (List Char)).Recognizes
      (do .literal "."; .many Char.isDigit) (Stops Char.isDigit) :=
  (recognizes_literal ".").then fun _ => recognizes_many Char.isDigit

theorem fraction_error {line : List Char} (h : Stops isPointed line) :
    (do literal "."; many Char.isDigit : Rule (List Char)) line = .error line :=
  bind_error _ (literal_stops (d := '.') rfl rfl h)

theorem recognizes_pointed : pointed.Recognizes .pointed (Stops isPointed) := by
  have hdigit {rest : List Char} (h : Stops isPointed rest) : Stops Char.isDigit rest :=
    h.mono fun c => isDigit_of_isPointed
  refine recognizes_either ?_ ?_ ?_
  · refine (recognizes_many1 Char.isDigit).bind (fun whole => ?_) ?_
    · exact Recognizes.map (Recognizes.optional (recognizes_fraction.mono fun rest => hdigit)
        fun hrest => ⟨_, fraction_error hrest⟩) _
    · intro _ text y rest h hrest
      obtain ⟨fraction, hfraction, -⟩ := Grammar.map_iff.mp h
      rcases Grammar.optional_iff.mp hfraction with ⟨ds, hds, -⟩ | ⟨rfl, -⟩
      · obtain ⟨back, rfl, -⟩ := Grammar.literal_bind_iff.mp hds
        exact stops_cons (by decide)
      · exact hdigit hrest
  · exact (recognizes_literal ".").then fun _ =>
      ((recognizes_many1 Char.isDigit).mono fun rest => hdigit).map _
  · intro text y rest h _
    obtain ⟨back, rfl, -⟩ := Grammar.literal_bind_iff.mp h
    exact ⟨_, bind_error _ (many1_error (stops_cons (by decide)))⟩

theorem head_pointed {text : List Char} {x : List Char × List Char}
    (h : Grammar.pointed text x) : ∃ c tail, text = c :: tail ∧ isPointed c = true := by
  rcases Grammar.either_iff.mp h with ⟨_, front, back, rfl, hfront, -⟩ | h
  · obtain ⟨c, tail, rfl, hc⟩ := head_many1 hfront
    exact ⟨c, tail ++ back, rfl, Bool.or_eq_true_iff.mpr (.inl hc)⟩
  · obtain ⟨back, rfl, -⟩ := Grammar.literal_bind_iff.mp h
    exact ⟨'.', back, rfl, rfl⟩

/-- Whether a power of ten may start with a character, or go on with it. -/
def isPower (c : Char) : Bool := c.isDigit || startsPower c

/-- The number behind the letter of a power. -/
theorem recognizes_exponent :
    (do
      let negative ← sign
      let n : Int := Numeral.value (← many1 Char.isDigit)
      return if negative then -n else n : Rule Int).Recognizes .exponent (Stops Char.isDigit) := by
  refine recognizes_sign.bind (fun negative => (recognizes_many1 Char.isDigit).map _) ?_
  intro _ text y rest h _
  obtain ⟨ds, ⟨hne, rfl, hdigits⟩, -⟩ := Grammar.map_iff.mp h
  exact stops_isSign_digits hne hdigits rest

theorem power_letter {c : Char} (h : startsPower c = true) (line : List Char) :
    power (c :: line) = (do
      let negative ← sign
      let n : Int := Numeral.value (← many1 Char.isDigit)
      return if negative then -n else n : Rule Int) line := by
  rcases startsPower_iff.mp h with rfl | rfl
  · rfl
  · rfl

theorem power_none {line : List Char} (h : Stops startsPower line) :
    power line = .ok (0, line) := by
  cases line with
  | nil => rfl
  | cons c line =>
    show (if startsPower c then _ else _ : Rule Int) (c :: line) = _
    rw [if_neg (Bool.eq_false_iff.mp (h c rfl))]
    rfl

theorem recognizes_power : power.Recognizes .power (Stops isPower) := by
  constructor
  · intro line p rest heq
    by_cases hstops : Stops startsPower line
    · rw [power_none hstops] at heq
      obtain ⟨rfl, rfl⟩ := Prod.mk.inj (Except.ok.inj heq)
      exact ⟨[], rfl, Grammar.power_iff.mpr (.inr ⟨rfl, rfl⟩)⟩
    · obtain ⟨c, tail, rfl, hc⟩ := exists_of_not_stops hstops
      rw [power_letter hc] at heq
      obtain ⟨front, rfl, hfront⟩ := recognizes_exponent.sound heq
      exact ⟨c :: front, rfl, Grammar.power_iff.mpr (.inl ⟨c, front, rfl, hc, hfront⟩)⟩
  · intro text p rest h hrest
    rcases Grammar.power_iff.mp h with ⟨c, back, rfl, hc, hback⟩ | ⟨rfl, rfl⟩
    · exact (power_letter hc _).trans (recognizes_exponent.complete hback
        (hrest.mono fun c h => (Bool.or_eq_false_iff.mp h).1))
    · exact power_none (hrest.mono fun c h => (Bool.or_eq_false_iff.mp h).2)

theorem isSign_of_isPointed {c : Char} (h : isPointed c = true) : isSign c = false := by
  rcases Bool.or_eq_true_iff.mp h with hdigit | hpoint
  · exact isSign_of_isDigit hdigit
  · obtain rfl := eq_of_beq hpoint
    rfl

theorem isPointed_of_goesOn {c : Char} (h : goesOn c = false) : isPointed c = false := by
  rw [isPointed, isDigit_of_goesOn h, Bool.false_or, beq_eq_false_iff_ne]
  exact ne_of_goesOn h (by decide)

theorem isPower_of_goesOn {c : Char} (h : goesOn c = false) : isPower c = false := by
  rw [isPower, startsPower, isDigit_of_goesOn h, Bool.false_or, Bool.or_eq_false_iff,
    beq_eq_false_iff_ne, beq_eq_false_iff_ne]
  exact ⟨ne_of_goesOn h (by decide), ne_of_goesOn h (by decide)⟩

/-- A power does not go on with the digits in front of it. -/
theorem stops_isPointed_power {text rest : List Char} {p : Int} (h : Grammar.power text p)
    (hrest : Stops isPointed rest) : Stops isPointed (text ++ rest) := by
  rcases Grammar.power_iff.mp h with ⟨c, back, rfl, hc, -⟩ | ⟨rfl, -⟩
  · rcases startsPower_iff.mp hc with rfl | rfl
    · exact stops_cons (by decide)
    · exact stops_cons (by decide)
  · exact hrest

theorem recognizes_decimal : decimal.Recognizes .decimal (Stops goesOn) := by
  refine recognizes_sign.bind (fun negative => recognizes_pointed.bind (fun x =>
    (recognizes_power.mono fun rest h => h.mono fun c => isPower_of_goesOn).map _) ?_) ?_
  · intro _ text d rest h hrest
    obtain ⟨p, hpower, -⟩ := Grammar.map_iff.mp h
    exact stops_isPointed_power hpower (hrest.mono fun c => isPointed_of_goesOn)
  · rintro _ text d rest ⟨x, front, back, rfl, hpointed, -⟩ -
    obtain ⟨c, tail, rfl, hc⟩ := head_pointed hpointed
    exact stops_cons (isSign_of_isPointed hc)

/-! ### Doubles that have names -/

theorem toLower_of_not_isUpper {c : Char} (h : c.isUpper = false) : c.toLower = c :=
  dif_neg (of_decide_eq_false h)

theorem toLower_of_isPointed {c : Char} (h : isPointed c = true) : c.toLower = c := by
  rcases Bool.or_eq_true_iff.mp h with hdigit | hpoint
  · have hupper := Char.isDigit_iff_toNat.mp hdigit
    refine toLower_of_not_isUpper (Bool.eq_false_iff.mpr fun hc => ?_)
    have hle := UInt32.le_iff_toNat_le.mp (of_decide_eq_true hc).1
    exact absurd (hle.trans hupper.2) (by decide)
  · obtain rfl := eq_of_beq hpoint
    rfl

theorem toLower_of_isSign {c : Char} (h : isSign c = true) : c.toLower = c := by
  obtain rfl | rfl : c = '+' ∨ c = '-' := by simpa [isSign] using h
  · rfl
  · rfl

/-- What a name starts with, in any mixture of cases. -/
theorem stops_keyword {p : Char → Bool} {t : String} {d : Char} {ds text : List Char} {x : Unit}
    (ht : t.toList = d :: ds) (hp : ∀ c, p c = true → c.toLower ≠ d)
    (h : Grammar.keyword t text x) (rest : List Char) : Stops p (text ++ rest) := by
  have htext : text.map Char.toLower = d :: ds := h.trans ht
  cases text with
  | nil => cases htext
  | cons c cs =>
    have hc : c.toLower = d := (List.cons.inj htext).1
    exact stops_cons (Bool.eq_false_iff.mpr fun hpc => hp c hpc hc)

theorem keyword_error {t : String} {d : Char} {ds line : List Char} (ht : t.toList = d :: ds)
    (h : Stops (fun c => c.toLower == d) line) : keyword t line = .error line := by
  have hlength : t.length = ds.length + 1 := by rw [← t.length_toList, ht, List.length_cons]
  have hnone : afterPrefix? t.toList ((line.take t.length).map Char.toLower) = none := by
    cases line with
    | nil =>
      rw [ht, List.take_nil]
      rfl
    | cons c line =>
      have hc : d ≠ c.toLower := fun hd => absurd (h c rfl) (by simp [hd])
      rw [ht, hlength, List.take_succ_cons, List.map_cons]
      exact if_neg hc
  rw [keyword, hnone]

/-- A name does not start with a character of a kind that has no cases, unless it is written so. -/
theorem stops_name {p : Char → Bool} {t : String} {d : Char} {ds text : List Char} {x : Unit}
    (hp : ∀ {c}, p c = true → c.toLower = c) (ht : t.toList = d :: ds) (hd : p d = false)
    (h : Grammar.keyword t text x) (rest : List Char) : Stops p (text ++ rest) := by
  refine stops_keyword ht (fun c hc => ?_) h rest
  rintro rfl
  rw [hp hc, hc] at hd
  cases hd

theorem pointed_error {line : List Char} (h : Stops isPointed line) :
    pointed line = .error line := by
  have hdigit : Stops Char.isDigit line := h.mono fun c => isDigit_of_isPointed
  exact (either_error _ (bind_error _ (many1_error hdigit))).trans
    (bind_error _ (literal_stops (d := '.') rfl rfl h))

theorem decimal_error {line rest : List Char} {negative : Bool}
    (hsign : sign line = .ok (negative, rest)) (h : Stops isPointed rest) :
    decimal line = .error rest :=
  (bind_ok hsign).trans (bind_error _ (pointed_error h))

section Infinite

variable {t : String} {d : Char} {ds text : List Char} {x : Double}

theorem recognizes_infinite (ht : t.toList = d :: ds) (hd : isSign d = false)
    (follows : List Char → Prop) :
    (do
      let negative ← sign
      keyword t
      return Double.infinity negative : Rule Double).Recognizes (.infinite t) follows := by
  refine recognizes_sign.bind (fun negative => (recognizes_keyword t).then fun _ =>
    recognizes_pure _ _) ?_
  intro _ text y rest h _
  obtain ⟨_, hname, -⟩ := Grammar.map_iff.mp h
  exact stops_name toLower_of_isSign ht hd hname rest

/-- The sign of an infinity is read in front of its name. -/
theorem sign_infinite (ht : t.toList = d :: ds) (hd : isSign d = false)
    (h : Grammar.infinite t text x) (rest : List Char) : ∃ negative back,
      Grammar.keyword t back () ∧ sign (text ++ rest) = .ok (negative, back ++ rest) := by
  obtain ⟨negative, front, back, rfl, hsign, h⟩ := h
  obtain ⟨_, hname, -⟩ := Grammar.map_iff.mp h
  refine ⟨negative, back, hname, ?_⟩
  rw [List.append_assoc]
  exact recognizes_sign.complete hsign (stops_name toLower_of_isSign ht hd hname rest)

theorem decimal_infinite (ht : t.toList = d :: ds) (hsign : isSign d = false)
    (hpointed : isPointed d = false) (h : Grammar.infinite t text x) (rest : List Char) :
    ∃ at_, decimal (text ++ rest) = .error at_ := by
  obtain ⟨negative, back, hname, heq⟩ := sign_infinite ht hsign h rest
  exact ⟨_, decimal_error heq (stops_name toLower_of_isPointed ht hpointed hname rest)⟩

/-- An infinity starts with a sign or with the first character of its name. -/
theorem keyword_infinite {t' : String} {d' : Char} {ds' : List Char} (ht : t.toList = d :: ds)
    (ht' : t'.toList = d' :: ds') (hd : d ≠ d') (hsign : '-' ≠ d' ∧ '+' ≠ d')
    (h : Grammar.infinite t text x) (rest : List Char) :
    keyword t' (text ++ rest) = .error (text ++ rest) := by
  refine keyword_error ht' ?_
  obtain ⟨negative, front, back, rfl, hfront, h⟩ := h
  obtain ⟨_, hname, -⟩ := Grammar.map_iff.mp h
  rcases Grammar.sign_iff.mp hfront with ⟨rfl, -⟩ | ⟨rfl, -⟩ | ⟨rfl, -⟩
  · exact stops_cons (beq_eq_false_iff_ne.mpr hsign.1)
  · exact stops_cons (beq_eq_false_iff_ne.mpr hsign.2)
  · refine stops_keyword ht (fun c hc => ?_) hname rest
    rw [eq_of_beq hc]
    exact hd.symm

end Infinite

/-- No name goes on as the longer one of an infinity. -/
theorem keyword_infinity {front rest : List Char} {x : Unit} (h : Grammar.keyword "inf" front x)
    (hrest : Stops goesOn rest) : ∃ at_, keyword "infinity" (front ++ rest) = .error at_ := by
  cases heq : keyword "infinity" (front ++ rest) with
  | error at_ => exact ⟨at_, rfl⟩
  | ok result =>
    obtain ⟨front', hline, hfront'⟩ := (recognizes_keyword "infinity").sound heq
    have hmap := congrArg (List.map Char.toLower) hline
    rw [List.map_append, List.map_append, hfront', h] at hmap
    cases rest with
    | nil => cases hmap
    | cons c rest =>
      have hfourth : c.toLower :: rest.map Char.toLower =
          'i' :: (['n', 'i', 't', 'y'] ++ result.2.map Char.toLower) :=
        (List.append_right_inj ['i', 'n', 'f']).mp hmap
      have hc : c.toLower = 'i' := (List.cons.inj hfourth).1
      rw [toLower_of_goesOn (hrest c rfl)] at hc
      exact absurd hc (ne_of_goesOn (hrest c rfl) (by decide))

theorem recognizes_float : float.Recognizes .float (Stops goesOn) := by
  have hnan := (recognizes_keyword "nan").then fun _ =>
    recognizes_pure Double.nan (Stops goesOn)
  have hlong := recognizes_infinite (t := "infinity") rfl rfl (Stops goesOn)
  have hshort := recognizes_infinite (t := "inf") rfl rfl (Stops goesOn)
  refine recognizes_choice_cons recognizes_decimal (recognizes_choice_cons hnan
    (recognizes_either hlong hshort ?_) ?_) ?_
  · rintro text x rest hg hrest
    obtain ⟨negative, back, hname, heq⟩ := sign_infinite rfl rfl hg rest
    obtain ⟨at_, herror⟩ := keyword_infinity hname hrest
    exact ⟨at_, (bind_ok heq).trans (bind_error _ herror)⟩
  · intro text x rest h _
    rcases Grammar.either_iff.mp h with hg | hg
    · exact ⟨_, bind_error _ (keyword_infinite rfl rfl (by decide) (by decide) hg rest)⟩
    · exact ⟨_, bind_error _ (keyword_infinite rfl rfl (by decide) (by decide) hg rest)⟩
  · intro text x rest h _
    rcases Grammar.choice_cons_iff.mp h with hg | h
    · obtain ⟨_, hname, -⟩ := Grammar.map_iff.mp hg
      exact ⟨_, decimal_error (sign_stops (stops_name toLower_of_isSign rfl rfl hname rest))
        (stops_name toLower_of_isPointed rfl rfl hname rest)⟩
    · rcases Grammar.either_iff.mp h with hg | hg
      · exact decimal_infinite rfl rfl rfl hg rest
      · exact decimal_infinite rfl rfl rfl hg rest

end Rule

end CircuitQir.Assembly
