import CircuitQir.Double.Text
/-!
# JSON values and their text

A `Json` is what the library writes. It is written compactly on one line, or laid out with one
member or element to a line and two spaces for each level; an empty list or object takes no line
of its own either way.

JSON has no spelling for infinities and NaNs, so these are written as `null`.
-/

namespace CircuitQir

/-- A JSON value to be written. Members of an object keep their order. -/
inductive Json where
  | null
  | bool (b : Bool)
  | natural (n : Nat)
  | double (d : Double)
  | string (s : String)
  | array (items : List Json)
  | object (members : List (String × Json))
deriving Repr, Inhabited

namespace Json

/-! ## Numbers and strings -/

/-- Numbers whose leading digit stands for a power of ten from `-5` to `15` are written with a
point, all others with an exponent. A tie between two shortest forms goes to the even one. -/
def numberFormat : NumberFormat := ⟨.even, fun e => -5 ≤ e ∧ e ≤ 15, true⟩

/-- A finite double in JSON, and `null` for any other. -/
def doubleText (d : Double) : List Char :=
  if d.isFinite then d.format numberFormat else ['n', 'u', 'l', 'l']

/-- A character of a string. Only quotes, backslashes and control characters are escaped. -/
def stringCharacter (c : Char) : List Char :=
  match c with
  | '"' => ['\\', '"']
  | '\\' => ['\\', '\\']
  | '\x08' => ['\\', 'b']
  | '\t' => ['\\', 't']
  | '\n' => ['\\', 'n']
  | '\x0c' => ['\\', 'f']
  | '\r' => ['\\', 'r']
  | c =>
    if c.toNat < 0x20 then
      ['\\', 'u', '0', '0', Nat.digitChar (c.toNat / 16), Nat.digitChar (c.toNat % 16)]
    else [c]

def stringText (s : String) : List Char :=
  '"' :: s.toList.flatMap stringCharacter ++ ['"']

def boolText (b : Bool) : List Char :=
  if b then ['t', 'r', 'u', 'e'] else ['f', 'a', 'l', 's', 'e']

/-! ## Layout -/

/-- What a layout puts between the parts of a value, given the level of nesting. -/
structure Layout where
  /-- In front of the first element at a level. -/
  opening : Nat → List Char
  /-- Between two elements, behind the comma. -/
  between : Nat → List Char
  /-- Behind the last element of a list at the level outside. -/
  closing : Nat → List Char
  /-- Behind the colon of a member. -/
  afterColon : List Char

/-- A new line at a level. -/
def indentation (level : Nat) : List Char := '\n' :: List.replicate (2 * level) ' '

namespace Layout

def compact : Layout := ⟨fun _ => [], fun _ => [], fun _ => [], []⟩

def pretty : Layout := ⟨indentation, indentation, indentation, [' ']⟩

end Layout

mutual

/-- The text of a value at a level of nesting. -/
def text (l : Layout) (level : Nat) : Json → List Char
  | null => ['n', 'u', 'l', 'l']
  | bool b => boolText b
  | natural n => Nat.toDigits 10 n
  | double d => doubleText d
  | string s => stringText s
  | array [] => ['[', ']']
  | array (x :: xs) =>
    '[' :: l.opening (level + 1) ++ text l (level + 1) x ++ itemsText l (level + 1) xs ++
      l.closing level ++ [']']
  | object [] => ['\x7b', '\x7d']
  | object ((k, v) :: ms) =>
    '\x7b' :: l.opening (level + 1) ++ stringText k ++ ':' :: l.afterColon ++
      text l (level + 1) v ++ membersText l (level + 1) ms ++ l.closing level ++ ['\x7d']

/-- The text of the elements behind the first. -/
def itemsText (l : Layout) (level : Nat) : List Json → List Char
  | [] => []
  | x :: xs => ',' :: l.between level ++ text l level x ++ itemsText l level xs

/-- The text of the members behind the first. -/
def membersText (l : Layout) (level : Nat) : List (String × Json) → List Char
  | [] => []
  | (k, v) :: ms =>
    ',' :: l.between level ++ stringText k ++ ':' :: l.afterColon ++ text l level v ++
      membersText l level ms

end

/-- The value on one line. -/
def compact (j : Json) : String := String.ofList (text .compact 0 j)

/-- The value laid out over several lines. -/
def pretty (j : Json) : String := String.ofList (text .pretty 0 j)

end Json

end CircuitQir
