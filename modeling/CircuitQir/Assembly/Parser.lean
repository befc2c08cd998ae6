import CircuitQir.Assembly.Grammar
import CircuitQir.Text.Blank
import CircuitQir.Text.Lines
import CircuitQir.Text.Utf8
/-!
# Reading modules from text

Text is read line by line. White space around a line, empty lines and lines that start with a
semicolon mean nothing. Between a header and its closing brace a line is a label or an
instruction; elsewhere the way a line starts tells what it is. The first line that does not fit
ends the reading.
-/

namespace CircuitQir.Assembly

open Ir

/-- What can be wrong with a line. -/
inductive Issue where
  /-- The line breaks its rule behind the given number of bytes. -/
  | rejected (line : String) (column : Nat)
  | outsideBlock
  | unrecognized (line : String)
  | unterminated
deriving DecidableEq, Repr

/-- Why a text is rejected, and at which line, counted from one. -/
structure Error where
  line : Nat
  issue : Issue
deriving DecidableEq, Repr

namespace Issue

/-- A rejected line is shown with a mark below the place where its rule stopped. -/
def message : Issue → String
  | rejected line column =>
    line ++ "\n" ++ String.ofList (List.replicate column ' ') ++ "^\n"
  | outsideBlock => "instruction outside of a basic block"
  | unrecognized line => s!"unrecognized line `{line}`"
  | unterminated => "function body is not terminated"

end Issue

namespace Error

def message (e : Error) : String :=
  "line " ++ Numeral.ofNat e.line ++ ": " ++ e.issue.message

/-- The name under which the problem is catalogued. -/
def code (_ : Error) : String := "Qsc.Llvm.Parse"

end Error

/-- The value of a rule that has to take up a whole line. -/
def whole {α : Type} (r : Rule α) (line : List Char) : Except Issue α :=
  let stopped (rest : List Char) : Issue :=
    .rejected (String.ofList line) (Utf8.width line - Utf8.width rest)
  match r line with
  | .ok (x, []) => .ok x
  | .ok (_, rest) => .error (stopped rest)
  | .error rest => .error (stopped rest)

/-- What has been read of a module, and the function whose lines are being read. -/
structure Draft where
  module : Module
  current : Option Function

namespace Draft

def empty : Draft := ⟨.empty, none⟩

/-- What a line starts with. -/
def startsWith (line : List Char) (text : String) : Bool := text.toList.isPrefixOf line

/-- The block with one more instruction. -/
def appendTo (b : Block) (i : Instruction) : Block :=
  { b with instructions := b.instructions ++ [i] }

/-- The function with one more instruction in its last block. -/
def appended (f : Function) (i : Instruction) : Except Issue Function :=
  match f.blocks.getLast? with
  | some b => .ok { f with blocks := f.blocks.dropLast ++ [appendTo b i] }
  | none => .error .outsideBlock

/-- Takes in a line of a function's body. -/
def bodyLine (m : Module) (f : Function) (line : List Char) : Except Issue Draft :=
  if line = ['\x7d'] then .ok ⟨{ m with functions := m.functions ++ [f] }, none⟩
  else if line.getLast? = some ':' then do
    let label ← whole name line.dropLast
    return ⟨m, some { f with blocks := f.blocks ++ [⟨label, []⟩] }⟩
  else do
    let i ← whole instruction line
    return ⟨m, some (← appended f i)⟩

/-- Takes in a line outside of all functions. -/
def moduleLine (m : Module) (line : List Char) : Except Issue Draft :=
  if startsWith line "source_filename" then do
    return ⟨{ m with sourceName := ← whole sourceName line }, none⟩
  else if startsWith line "declare " then do
    return ⟨{ m with declarations := m.declarations ++ [← whole declaration line] }, none⟩
  else if startsWith line "define " then do
    return ⟨m, some (← whole header line)⟩
  else if startsWith line "attributes " then do
    return ⟨{ m with attributeGroups := m.attributeGroups ++ [← whole attributeGroup line] }, none⟩
  else if startsWith line "!llvm.module.flags" then .ok ⟨m, none⟩
  else if startsWith line "!" then do
    return ⟨{ m with flags := m.flags ++ [← whole moduleFlag line] }, none⟩
  else .error (.unrecognized (String.ofList line))

/-- Takes in a line. -/
def line (d : Draft) (raw : List Char) : Except Issue Draft :=
  let line := trimmed raw
  if line.isEmpty || line.head? == some ';' then .ok d
  else
    match d.current with
    | some f => bodyLine d.module f line
    | none => moduleLine d.module line

/-- Takes in lines, the first of which has the given number. -/
def lines (d : Draft) (number : Nat) : List (List Char) → Except Error Draft
  | [] => .ok d
  | l :: ls =>
    match d.line l with
    | .ok d => d.lines (number + 1) ls
    | .error issue => .error ⟨number, issue⟩

end Draft

/-- The module that some text describes. -/
def parse (text : String) : Except Error Module := do
  let ls := linesOf text.toList
  let d ← Draft.empty.lines 1 ls
  match d.current with
  | none => return d.module
  | some _ => throw ⟨ls.length, .unterminated⟩

end CircuitQir.Assembly
