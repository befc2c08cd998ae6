/-!
# Lines of a text

A text is cut behind each line feed. A carriage return just before the line feed belongs to the
line end, and nothing follows a line feed at the end of the text.
-/

namespace CircuitQir

/-- A line without the carriage return of its line end. -/
def withoutReturn (line : List Char) : List Char :=
  match line.getLast? with
  | some '\r' => line.dropLast
  | _ => line

/-- The lines of what follows the characters of a line begun, kept latest first. -/
def linesFrom (begun : List Char) : List Char → List (List Char)
  | [] => if begun.isEmpty then [] else [begun.reverse]
  | '\n' :: cs => withoutReturn begun.reverse :: linesFrom [] cs
  | c :: cs => linesFrom (c :: begun) cs

/-- The lines of a text. -/
def linesOf (text : List Char) : List (List Char) := linesFrom [] text

end CircuitQir
