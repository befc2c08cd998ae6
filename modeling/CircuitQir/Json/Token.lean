import CircuitQir.Json.Escape
import CircuitQir.Json.Number
/-!
# Tokens of JSON

A text is cut into tokens before anything is known about its structure. Where the characters
cannot be part of any JSON text the list ends with the token `bad`. Every token takes up
characters (`token?_lt`), so the list comes to an end.
-/

namespace CircuitQir.Json

inductive Token where
  | openBrace
  | closeBrace
  | openBracket
  | closeBracket
  | comma
  | colon
  | null
  | bool (b : Bool)
  /-- A number, unless it is out of range. -/
  | number (n : Option Number)
  /-- A string, unless an escape in it denotes no character. -/
  | string (s : Option String)
  /-- What no JSON text contains. -/
  | bad
deriving DecidableEq, Repr

/-! ## Single tokens -/

/-- White space between tokens. -/
def isSpace (c : Char) : Bool := c == ' ' || c == '\n' || c == '\t' || c == '\r'

/-- The token at the front of a text that does not start with white space, and what follows. -/
def token? : List Char → Option (Token × List Char)
  | '\x7b' :: cs => some (.openBrace, cs)
  | '\x7d' :: cs => some (.closeBrace, cs)
  | '[' :: cs => some (.openBracket, cs)
  | ']' :: cs => some (.closeBracket, cs)
  | ',' :: cs => some (.comma, cs)
  | ':' :: cs => some (.colon, cs)
  | 'n' :: 'u' :: 'l' :: 'l' :: cs => some (.null, cs)
  | 't' :: 'r' :: 'u' :: 'e' :: cs => some (.bool true, cs)
  | 'f' :: 'a' :: 'l' :: 's' :: 'e' :: cs => some (.bool false, cs)
  | '"' :: cs =>
    (pieces? cs).map fun (ps, rest) => (.string ((characters? ps).map String.ofList), rest)
  | cs => (number? cs).map fun (n, rest) => (.number n, rest)

/-- What follows a token is shorter than what began with it. -/
theorem token?_lt {cs rest : List Char} {t : Token} (h : token? cs = some (t, rest)) :
    rest.length < cs.length := by
  unfold token? at h
  split at h
  case h_10 =>
    obtain ⟨⟨ps, r⟩, hp, he⟩ := Option.map_eq_some_iff.1 h
    cases he
    have := pieces?_lt hp
    simp only [List.length_cons]
    omega
  case h_11 =>
    obtain ⟨⟨n, r⟩, hn, he⟩ := Option.map_eq_some_iff.1 h
    cases he
    exact number?_lt hn
  all_goals
    cases h
    simp only [List.length_cons]
    omega

/-! ## The list of tokens -/

/-- The tokens of a text. -/
def tokens (cs : List Char) : List Token :=
  match cs with
  | [] => []
  | c :: cs =>
    if isSpace c then tokens cs
    else
      match _h : token? (c :: cs) with
      | some (t, rest) => t :: tokens rest
      | none => [.bad]
termination_by cs.length
decreasing_by
  · simp
  · exact token?_lt _h

end CircuitQir.Json
