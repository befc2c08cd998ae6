import CircuitQir.Text.Hidden
/-!
# Text in quotes

The way messages show a piece of text from outside: in double quotes, with a backslash before
quotes and backslashes, short names for the common control characters, and the code point of
every other character that would not be visible.
-/

namespace CircuitQir

/-- A character between quotes. -/
def quotedCharacter (c : Char) : List Char :=
  match c with
  | '"' => ['\\', '"']
  | '\\' => ['\\', '\\']
  | '\n' => ['\\', 'n']
  | '\r' => ['\\', 'r']
  | '\t' => ['\\', 't']
  | c =>
    if c.toNat = 0 then ['\\', '0']
    else if isHidden c then ['\\', 'u', '\x7b'] ++ Nat.toDigits 16 c.toNat ++ ['\x7d']
    else [c]

/-- A text in quotes. -/
def quotedForm (s : String) : String :=
  String.ofList ('"' :: s.toList.flatMap quotedCharacter ++ ['"'])

/-- A text in quotes, or the absence of one. -/
def quotedOption : Option String → String
  | some s => "Some(" ++ quotedForm s ++ ")"
  | none => "None"

end CircuitQir
