import CircuitQir.Json.Token
import CircuitQir.Json.Value
import CircuitQir.Proofs.Double.Accuracy
import CircuitQir.Proofs.Double.Digits
/-!
# Numbers and strings of JSON are read back

What numbers and strings are written as is read as one token that stands for them. A string is read
back whatever characters it has, since exactly those are escaped that could not stand between
quotes. Digits could go on in what follows a number, so this must not be (`Stops goesOn`).

A finite double is read as a double, what its digits come to step by step (`reread`). That it is
never taken for a whole number is what the decimal place of its format is for. It is the same double
bit by bit where its digits and their power of ten are doubles themselves (`IsExact.reread_eq`). In
general its last bits may be others, but it is never far off (`isNear_reread`).
-/

namespace CircuitQir.Json

variable {rest : List Char}

/-! ## Strings -/

/-- The piece that a written character is read as. -/
def pieceOf (c : Char) : Piece :=
  if c.toNat < 0x20 ∧ c ∉ ['\x08', '\t', '\n', '\x0c', '\r'] then .unit c.toNat else .character c

theorem unit?_of_lt : ∀ n < 0x20,
    unit? '0' '0' (Nat.digitChar (n / 16)) (Nat.digitChar (n % 16)) = some n := by
  decide

theorem pieces?_stringCharacter (c : Char) (cs : List Char) :
    pieces? (stringCharacter c ++ cs) = (pieces? cs).map fun (ps, r) => (pieceOf c :: ps, r) := by
  unfold stringCharacter
  split
  case h_8 hquote hslash hb ht hn hf hr =>
    split
    · rename_i hcontrol
      have hpiece : pieceOf c = .unit c.toNat := if_pos ⟨hcontrol, by simp_all⟩
      rw [hpiece]
      show pieces? ('\\' :: 'u' :: '0' :: '0' :: _ :: _ :: cs) = _
      rw [pieces?, unit?_of_lt _ hcontrol]
    · rename_i hcontrol
      have hpiece : pieceOf c = .character c := if_neg fun h => hcontrol h.1
      rw [hpiece]
      show pieces? (c :: cs) = _
      rw [pieces?]
      · rw [if_neg (not_or.mpr ⟨hcontrol, hslash⟩)]
      · exact hquote
      · intro a b d e rest heq
        exact absurd heq hslash
      · intro d rest heq
        exact absurd heq hslash
  all_goals rfl

theorem characters?_pieceOf (c : Char) (ps : List Piece) :
    characters? (pieceOf c :: ps) = (characters? ps).map (c :: ·) := by
  unfold pieceOf
  split
  · rename_i hcontrol
    have hhigh : isHighHalf c.toNat = false := by simp [isHighHalf]; omega
    have hlow : isLowHalf c.toNat = false := by simp [isLowHalf]; omega
    have hc : Char.ofNat c.toNat = c := Char.ofNat_toNat c
    cases ps with
    | nil => simp [characters?, hhigh, hlow, hc]
    | cons p ps =>
      cases p with
      | character d => simp [characters?, hhigh, hlow, hc]
      | unit m => simp [characters?, hhigh, hlow, hc]
  · rfl

theorem pieces?_flatMap (cs : List Char) :
    pieces? (cs.flatMap stringCharacter ++ '"' :: rest) = some (cs.map pieceOf, rest) := by
  induction cs with
  | nil => rfl
  | cons c cs ih =>
    rw [List.flatMap_cons, List.append_assoc, pieces?_stringCharacter, ih]
    rfl

theorem characters?_map (cs : List Char) : characters? (cs.map pieceOf) = some cs := by
  induction cs with
  | nil => rfl
  | cons c cs ih =>
    rw [List.map_cons, characters?_pieceOf, ih]
    rfl

/-- A string is read back. -/
theorem token?_string (s : String) :
    token? (stringText s ++ rest) = some (.string (some s), rest) := by
  have hpieces : pieces? (s.toList.flatMap stringCharacter ++ '"' :: rest) =
      some (s.toList.map pieceOf, rest) := pieces?_flatMap s.toList
  have hcut : stringText s ++ rest = '"' :: (s.toList.flatMap stringCharacter ++ '"' :: rest) := by
    simp [stringText]
  rw [hcut]
  show (pieces? (s.toList.flatMap stringCharacter ++ '"' :: rest)).map _ = _
  rw [hpieces]
  show some (Token.string ((characters? (s.toList.map pieceOf)).map String.ofList), rest) = _
  rw [characters?_map, Option.map_some, String.ofList_toList]

/-! ## Numbers -/

theorem isDigit_of_stops (h : Stops goesOn rest) : Stops Char.isDigit rest :=
  h.mono fun _ => isDigit_of_goesOn

theorem wholeDigits?_append {whole : List Char} (hne : whole ≠ [])
    (hdigits : ∀ c ∈ whole, c.isDigit = true) (hunpadded : Unpadded whole)
    (hrest : Stops Char.isDigit rest) : wholeDigits? (whole ++ rest) = some (whole, rest) := by
  unfold wholeDigits?
  split
  · rename_i c tail heq
    rcases hunpadded with rfl | hhead
    · obtain rfl := (List.cons.inj heq).2
      rw [if_neg (by simp [hrest c rfl])]
    · have hzero : whole.head? = some '0' := by
        rw [← List.head?_append_of_ne_nil whole hne, heq]
        rfl
      exact absurd hzero hhead
  · rw [takeWhile_stops hdigits hrest, dropWhile_stops hdigits hrest, if_neg (by simpa using hne)]

theorem fraction?_append {fraction : Option (List Char)} (hne : ∀ f ∈ fraction, f ≠ [])
    (hdigits : ∀ c ∈ fraction.getD [], c.isDigit = true) (hrest : Stops Char.isDigit rest)
    (hpoint : rest.head? ≠ some '.') :
    fraction? (fractionText fraction ++ rest) = some (fraction.getD [], rest) := by
  cases fraction with
  | none =>
    show fraction? rest = _
    unfold fraction?
    split
    · exact absurd rfl hpoint
    · rfl
  | some fraction =>
    have hfraction : fraction ≠ [] := hne fraction rfl
    have htake : (fraction ++ rest).takeWhile Char.isDigit = fraction :=
      takeWhile_stops hdigits hrest
    have hdrop : (fraction ++ rest).dropWhile Char.isDigit = rest := dropWhile_stops hdigits hrest
    show fraction? ('.' :: (fraction ++ rest)) = _
    rw [fraction?, htake, hdrop, if_neg (by simpa using hfraction), Option.getD_some]

theorem power?_append (power : Option Int) (hrest : Stops goesOn rest) :
    power? (powerText power ++ rest) = some (power, rest) := by
  cases power with
  | none =>
    show power? rest = _
    cases rest with
    | nil => rfl
    | cons c rest =>
      have he : c ≠ 'e' := ne_of_goesOn (hrest c rfl) (by decide)
      have hE : c ≠ 'E' := ne_of_goesOn (hrest c rfl) (by decide)
      rw [power?, if_neg (by simp [he, hE])]
  | some e =>
    have hdigits : ∀ c ∈ Nat.toDigits 10 e.natAbs, c.isDigit = true := isDigit_of_mem_toDigits
    have htake := takeWhile_stops hdigits (isDigit_of_stops hrest)
    have hdrop := dropWhile_stops hdigits (isDigit_of_stops hrest)
    have hvalue := Numeral.value_toDigits e.natAbs
    show power? ('e' :: (if e < 0 then '-' else '+') :: (Nat.toDigits 10 e.natAbs ++ rest)) = _
    by_cases he : e < 0
    · simp [power?, he, htake, hdrop, hvalue, abs_of_neg he]
    · simp [power?, he, htake, hdrop, hvalue, abs_of_nonneg (not_lt.mp he)]

theorem number?_of_parts (negative : Bool) {body rest₁ rest₂ whole fraction : List Char}
    {power : Option Int} (hminus : body.head? ≠ some '-')
    (hwhole : wholeDigits? body = some (whole, rest₁))
    (hfraction : fraction? rest₁ = some (fraction, rest₂))
    (hpower : power? rest₂ = some (power, rest)) :
    number? ((if negative then ['-'] else []) ++ body) =
      some (numberOf negative whole fraction power, rest) := by
  cases negative with
  | true => simp [number?, hwhole, hfraction, hpower]
  | false => simp [number?, hminus, hwhole, hfraction, hpower]

/-- A number is read as what its parts stand for. -/
theorem number?_append (negative : Bool) {whole : List Char} {fraction : Option (List Char)}
    (power : Option Int) (h : Spelled whole fraction) (hunpadded : Unpadded whole)
    (hrest : Stops goesOn rest) :
    number? ((if negative then ['-'] else []) ++
        (whole ++ fractionText fraction ++ powerText power) ++ rest) =
      some (numberOf negative whole (fraction.getD []) power, rest) := by
  have hpower : Stops Char.isDigit (powerText power ++ rest) ∧
      (powerText power ++ rest).head? ≠ some '.' := by
    cases power with
    | none =>
      refine ⟨isDigit_of_stops hrest, fun hhead => ?_⟩
      exact absurd (hrest '.' hhead) (by decide)
    | some e => exact ⟨stops_cons (by decide), by simp [powerText]⟩
  have hfraction : Stops Char.isDigit (fractionText fraction ++ (powerText power ++ rest)) := by
    cases fraction with
    | none => exact hpower.1
    | some fraction => exact stops_cons (by decide)
  have hminus : (whole ++ (fractionText fraction ++ (powerText power ++ rest))).head? ≠
      some '-' := by
    rw [List.head?_append_of_ne_nil _ h.whole_ne, List.head?_eq_some_head h.whole_ne]
    intro hhead
    have hdigit := h.whole_digits _ (List.head_mem h.whole_ne)
    rw [Option.some.inj hhead] at hdigit
    exact absurd hdigit (by decide)
  rw [List.append_assoc, List.append_assoc, List.append_assoc]
  exact number?_of_parts negative hminus
    (wholeDigits?_append h.whole_ne h.whole_digits hunpadded hfraction)
    (fraction?_append h.fraction_ne h.fraction_digits hpower.1 hpower.2)
    (power?_append power hrest)

/-- A text that starts with a sign or a digit is read as a number. -/
theorem token?_eq_number? {c : Char} {cs : List Char} (h : c = '-' ∨ c.isDigit = true) :
    token? (c :: cs) = (number? (c :: cs)).map fun (n, rest) => (.number n, rest) := by
  unfold token?
  split
  case h_11 => rfl
  all_goals
    rename_i heq
    obtain rfl := (List.cons.inj heq).1
    exact absurd h (by decide)

/-- A number is one token, whatever its parts are. -/
theorem token?_append (negative : Bool) {whole : List Char} {fraction : Option (List Char)}
    (power : Option Int) (h : Spelled whole fraction) (hunpadded : Unpadded whole)
    (hrest : Stops goesOn rest) :
    token? ((if negative then ['-'] else []) ++
        (whole ++ fractionText fraction ++ powerText power) ++ rest) =
      some (.number (numberOf negative whole (fraction.getD []) power), rest) := by
  have hnumber := number?_append negative power h hunpadded hrest
  obtain ⟨c, cs, hc, hcs⟩ : ∃ c cs, (c = '-' ∨ c.isDigit = true) ∧
      (if negative then ['-'] else []) ++ (whole ++ fractionText fraction ++ powerText power) ++
        rest = c :: cs := by
    cases negative with
    | true => exact ⟨'-', _, .inl rfl, rfl⟩
    | false =>
      obtain ⟨c, cs, rfl⟩ := List.exists_cons_of_ne_nil h.whole_ne
      exact ⟨c, _, .inr (h.whole_digits c List.mem_cons_self), rfl⟩
  rw [hcs] at hnumber ⊢
  rw [token?_eq_number? hc, hnumber]
  rfl

theorem le_ofDigitChars (cs : List Char) (n : Nat) : n ≤ Nat.ofDigitChars 10 cs n := by
  induction cs generalizing n with
  | nil => exact Nat.le_refl n
  | cons c cs ih => exact Nat.le_trans (by omega) (ih (10 * n + (c.toNat - '0'.toNat)))

/-- Digits of a number of 64 bits are all taken. -/
theorem significand_of_lt {cs : List Char} {n : Nat} (h : Nat.ofDigitChars 10 cs n < 2 ^ 64) :
    significand n cs = (Nat.ofDigitChars 10 cs n, []) := by
  induction cs generalizing n with
  | nil => rfl
  | cons c cs ih =>
    have hfits : 10 * n + (c.toNat - '0'.toNat) < 2 ^ 64 :=
      Nat.lt_of_le_of_lt (le_ofDigitChars cs _) h
    rw [significand, if_pos hfits]
    exact ih h

theorem numberOf_natural {n : Nat} (h : n < 2 ^ 64) :
    numberOf false (Nat.toDigits 10 n) [] none = some (.natural n) := by
  have hvalue : Nat.ofDigitChars 10 (Nat.toDigits 10 n) 0 = n := Numeral.value_toDigits n
  have hdigits : significand 0 (Nat.toDigits 10 n) = (n, []) := by
    rw [significand_of_lt (by rwa [hvalue]), hvalue]
  simp [numberOf, hdigits]

/-- A natural number is read as the number that its digits are. -/
theorem token?_natural (n : Nat) (hrest : Stops goesOn rest) :
    token? (Nat.toDigits 10 n ++ rest) =
      some (.number (numberOf false (Nat.toDigits 10 n) [] none), rest) := by
  have hspelled : Spelled (Nat.toDigits 10 n) none :=
    ⟨Nat.toDigits_ne_nil, isDigit_of_mem_toDigits, nofun, nofun⟩
  have hunpadded : Unpadded (Nat.toDigits 10 n) := by
    by_cases hzero : n = 0
    · subst hzero
      exact .inl rfl
    · exact .inr (head?_toDigits_ne hzero)
  have htoken := token?_append false none hspelled hunpadded hrest
  simpa [fractionText, powerText] using htoken

/-- A number with a fraction or an exponent is a double. -/
theorem numberOf_eq_real (negative : Bool) {whole : List Char} {fraction : Option (List Char)}
    {power : Option Int} (hspelled : Spelled whole fraction)
    (hpart : fraction.isSome ∨ power.isSome)
    (hdigits : (Decimal.ofParts whole fraction power).digits < 2 ^ 64) :
    numberOf negative whole (fraction.getD []) power =
      real negative (.ofParts whole fraction power) := by
  have hpart : ((fraction.getD []).isEmpty && power.isNone) = false := by
    rcases hpart with hsome | hsome
    · obtain ⟨f, rfl⟩ := Option.isSome_iff_exists.mp hsome
      have hne := hspelled.fraction_ne f rfl
      simp [hne]
    · obtain ⟨e, rfl⟩ := Option.isSome_iff_exists.mp hsome
      simp
  have hvalue : Nat.ofDigitChars 10 (fraction.getD []) (Numeral.value whole) < 2 ^ 64 :=
    (Decimal.value_digits whole (fraction.getD [])) ▸ hdigits
  have hwhole : significand 0 whole = (Numeral.value whole, []) :=
    significand_of_lt (Nat.lt_of_le_of_lt (le_ofDigitChars _ _) hvalue)
  simp [numberOf, hwhole, significand_of_lt hvalue, hpart, Decimal.ofParts, Decimal.value_digits,
    sub_eq_neg_add]

/-- The double that a finite double is read as from its text: what its digits come to step by
step. -/
def reread (d : Double) : Double :=
  .ofMagnitude d.isNegative ((d.written numberFormat).stepwise?.getD Magnitude.infinity)

section

variable {d : Double}

theorem digits_written_le (hd : d.isFinite = true) :
    (d.written numberFormat).digits ≤ 10 ^ 17 := by
  unfold Double.written
  dsimp only
  split
  · exact Nat.zero_le _
  rename_i hzero
  have hwidth := Decimal.width_shortest_le numberFormat.tie (of_decide_eq_true hd) hzero
  generalize Decimal.shortest numberFormat.tie d.magnitude = s at hwidth
  have hlt := Decimal.lt_pow_width s.digits
  split
  · rename_i h
    obtain ⟨hpositional, hexponent⟩ := h
    have hplaces : Decimal.width s.digits + s.exponent.toNat ≤ 16 := by
      have := (of_decide_eq_true hpositional).2
      omega
    have hspelled : s.spelledOut.digits ≤ 10 ^ 16 := by
      rw [Decimal.spelledOut, if_pos hexponent]
      calc s.digits * 10 ^ s.exponent.toNat
          ≤ 10 ^ Decimal.width s.digits * 10 ^ s.exponent.toNat := Nat.mul_le_mul_right _ hlt.le
        _ = 10 ^ (Decimal.width s.digits + s.exponent.toNat) := (Nat.pow_add ..).symm
        _ ≤ 10 ^ 16 := Nat.pow_le_pow_right (by decide) hplaces
    calc 10 * s.spelledOut.digits ≤ 10 * 10 ^ 16 := Nat.mul_le_mul_left 10 hspelled
      _ = 10 ^ 17 := rfl
  · exact hlt.le.trans (Nat.pow_le_pow_right (by decide) hwidth)

/-- No text of a finite double is put out of range by its steps, nor far off. -/
theorem exists_stepwise?_written (hd : d.isFinite = true) : ∃ k < Magnitude.infinity,
    (d.written numberFormat).stepwise? = some k ∧ Magnitude.Close k d.magnitude := by
  by_cases hzero : d.magnitude = 0
  · have hstepwise : (d.written numberFormat).stepwise? = some 0 := by
      rw [Double.written, if_pos hzero, Decimal.stepwise?, Magnitude.scale?]
      rfl
    rw [hzero]
    exact ⟨0, by decide, hstepwise, Nat.zero_le _, Nat.zero_le _⟩
  have hread := Double.magnitude_written numberFormat hd
  have hdigits := digits_written_le hd
  have hne : (d.written numberFormat).digits ≠ 0 := by
    intro hdigits
    rw [Decimal.magnitude, if_pos hdigits] at hread
    exact hzero hread.symm
  have hvalue : (d.written numberFormat).value ≤ Magnitude.largest := by
    rw [Double.value_written numberFormat hzero]
    exact Decimal.value_shortest_le _ (of_decide_eq_true hd)
  obtain ⟨k, hlt, hk⟩ := Decimal.exists_stepwise? hne hdigits hvalue
  have hclose := Decimal.close_stepwise? hdigits (hread.trans_ne hzero)
    (hread.trans_lt (of_decide_eq_true hd)) hlt hk
  exact ⟨k, hlt, hk, hread ▸ hclose⟩

/-- A finite double of the same sign, at most three doubles away. -/
structure IsNear (r d : Double) : Prop where
  finite : r.isFinite = true
  sign : r.isNegative = d.isNegative
  close : Magnitude.Close r.magnitude d.magnitude

theorem isNear_reread (hd : d.isFinite = true) : IsNear (reread d) d := by
  obtain ⟨k, hlt, hk, hclose⟩ := exists_stepwise?_written hd
  have hbits : k < 2 ^ 63 := hlt.trans (by decide)
  have heq : reread d = .ofMagnitude d.isNegative k := by
    rw [reread, hk, Option.getD_some]
  have hmagnitude : (reread d).magnitude = k := by
    rw [heq, Double.magnitude_ofMagnitude _ hbits]
  refine ⟨?_, ?_, hmagnitude ▸ hclose⟩
  · rw [Double.isFinite, hmagnitude]
    exact decide_eq_true hlt
  · rw [heq, Double.isNegative_ofMagnitude _ hbits]

/-- The digits of a double and the power of ten behind them are doubles themselves. -/
structure IsExact (d : Double) : Prop where
  finite : d.isFinite = true
  digits : (d.written numberFormat).digits < 2 ^ 53
  exponent : (d.written numberFormat).exponent.natAbs ≤ 22

instance (d : Double) : Decidable (IsExact d) :=
  decidable_of_iff
    (d.isFinite = true ∧ (d.written numberFormat).digits < 2 ^ 53 ∧
      (d.written numberFormat).exponent.natAbs ≤ 22)
    ⟨fun h => ⟨h.1, h.2.1, h.2.2⟩, fun h => ⟨h.finite, h.digits, h.exponent⟩⟩

theorem IsExact.reread_eq (h : IsExact d) : reread d = d := by
  have hmagnitude := Double.magnitude_written numberFormat h.finite
  have hlt : (d.written numberFormat).magnitude < Magnitude.infinity :=
    hmagnitude ▸ of_decide_eq_true h.finite
  rw [reread, Decimal.stepwise?_eq_magnitude h.digits h.exponent hlt, Option.getD_some,
    hmagnitude, Double.ofMagnitude_isNegative_magnitude]

/-- A finite double is read as a double. -/
theorem token?_double (hd : d.isFinite = true) (hrest : Stops goesOn rest) :
    token? (d.format numberFormat ++ rest) = some (.number (some (.double (reread d))), rest) := by
  obtain ⟨whole, fraction, power, htext, hspelled, hunpadded, hpart, hparts⟩ :=
    Double.format_eq numberFormat hd
  have hdigits : (Decimal.ofParts whole fraction power).digits < 2 ^ 64 := by
    rw [hparts]
    exact (digits_written_le hd).trans_lt (by decide)
  obtain ⟨k, -, hk, -⟩ := exists_stepwise?_written hd
  have htoken := token?_append d.isNegative power hspelled hunpadded hrest
  rw [numberOf_eq_real d.isNegative hspelled (hpart rfl) hdigits, hparts, real, hk] at htoken
  rw [htext, Double.signText, reread, hk]
  exact htoken

end

end CircuitQir.Json
