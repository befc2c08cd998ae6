/-!
# Strings of JSON

Between its quotes a string holds characters, and escapes behind a backslash. An escape by number
gives a code unit; two of them may be the halves of one character.

A half without its other half does not break a text. The string is read as one without a value,
and only a reader that needs the value stumbles over it.
-/

namespace CircuitQir.Json

/-! ## Code units -/

def hexValue? (c : Char) : Option Nat :=
  if c.isDigit then some (c.toNat - '0'.toNat)
  else if 'a' ≤ c ∧ c ≤ 'f' then some (c.toNat - 'a'.toNat + 10)
  else if 'A' ≤ c ∧ c ≤ 'F' then some (c.toNat - 'A'.toNat + 10)
  else none

/-- The number that four hexadecimal digits spell. -/
def unit? (a b c d : Char) : Option Nat := do
  return (((← hexValue? a) * 16 + (← hexValue? b)) * 16 + (← hexValue? c)) * 16 + (← hexValue? d)

/-- Whether a code unit is the first half of a character. -/
def isHighHalf (n : Nat) : Bool := 0xd800 ≤ n && n < 0xdc00

/-- Whether a code unit is the second half of a character. -/
def isLowHalf (n : Nat) : Bool := 0xdc00 ≤ n && n < 0xe000

/-- The character that two halves make up. -/
def wholeCharacter (high low : Nat) : Char :=
  Char.ofNat (0x10000 + (high - 0xd800) * 0x400 + (low - 0xdc00))

/-- The character an escape of one letter stands for. -/
def shortEscape? : Char → Option Char
  | '"' => some '"'
  | '\\' => some '\\'
  | '/' => some '/'
  | 'b' => some '\x08'
  | 'f' => some '\x0c'
  | 'n' => some '\n'
  | 'r' => some '\r'
  | 't' => some '\t'
  | _ => none

/-- A part of a string: a character, or the code unit of an escape by number. -/
inductive Piece where
  | character (c : Char)
  | unit (n : Nat)

/-- The pieces of a string up to its closing quote, and what follows the quote. There is no
result if the string does not end or holds something a string cannot. -/
def pieces? : List Char → Option (List Piece × List Char)
  | [] => none
  | '"' :: rest => some ([], rest)
  | '\\' :: 'u' :: a :: b :: c :: d :: rest =>
    match unit? a b c d with
    | some n => (pieces? rest).map fun (ps, r) => (.unit n :: ps, r)
    | none => none
  | '\\' :: c :: rest =>
    match shortEscape? c with
    | some e => (pieces? rest).map fun (ps, r) => (.character e :: ps, r)
    | none => none
  | c :: rest =>
    if c.toNat < 0x20 ∨ c = '\\' then none
    else (pieces? rest).map fun (ps, r) => (.character c :: ps, r)

/-- The characters that pieces make up, unless a half is left without its other half. -/
def characters? : List Piece → Option (List Char)
  | [] => some []
  | .character c :: ps => (characters? ps).map (c :: ·)
  | .unit n :: .unit m :: ps =>
    if isHighHalf n && isLowHalf m then (characters? ps).map (wholeCharacter n m :: ·)
    else if isHighHalf n || isLowHalf n then none
    else (characters? (.unit m :: ps)).map (Char.ofNat n :: ·)
  | .unit n :: ps =>
    if isHighHalf n || isLowHalf n then none
    else (characters? ps).map (Char.ofNat n :: ·)

/-! ## A string takes up characters -/

theorem pieces?_lt {cs rest : List Char} {ps : List Piece} (h : pieces? cs = some (ps, rest)) :
    rest.length < cs.length := by
  fun_induction pieces? cs generalizing ps with
  | case1 => simp at h
  | case2 => cases h; simp
  | case3 a b c d r n hu ih =>
    obtain ⟨⟨qs, s⟩, hq, he⟩ := Option.map_eq_some_iff.1 h
    cases he
    have := ih hq
    simp only [List.length_cons]
    omega
  | case4 => exact nomatch h
  | case5 c r hn e he ih =>
    obtain ⟨⟨qs, s⟩, hq, he⟩ := Option.map_eq_some_iff.1 h
    cases he
    have := ih hq
    simp only [List.length_cons]
    omega
  | case6 => exact nomatch h
  | case7 => exact nomatch h
  | case8 c r _ _ _ _ ih =>
    obtain ⟨⟨qs, s⟩, hq, he⟩ := Option.map_eq_some_iff.1 h
    cases he
    have := ih hq
    simp only [List.length_cons]
    omega

end CircuitQir.Json
