import CircuitQir.Double.Text
import CircuitQir.Ir.Basic
import CircuitQir.Text.Numeral
/-!
# Writing modules as text

A module as lines of text: two lines that name the source, then declarations and functions each
after an empty line, then the attribute groups, then the flags behind a list of their numbers.

The type in front of a called name is the result type of the first declaration of that name; a
name without a declaration is called as if it had no result.
-/

namespace CircuitQir.Assembly

open Ir

/-! ## Parts of a line -/

def typeText : ValueType → String
  | .i1 => "i1"
  | .i64 => "i64"
  | .double => "double"
  | .ptr => "ptr"

def resultText : Option ValueType → String
  | none => "void"
  | some t => typeText t

def boolText (b : Bool) : String := if b then "true" else "false"

def operandText : Operand → String
  | .bool b => "i1 " ++ boolText b
  | .int v => "i64 " ++ Numeral.ofInt v.toInt
  | .double d => "double " ++ d.literal
  | .null => "ptr null"
  | .pointer p => "ptr inttoptr (i64 " ++ Numeral.ofNat p.toNat ++ " to ptr)"

/-- Parts one after the other with a separator between them. -/
def joined (separator : String) : List String → String
  | [] => ""
  | [s] => s
  | s :: rest => s ++ separator ++ joined separator rest

/-- The attribute group at the end of a line. -/
def groupSuffix : Option UInt32 → String
  | none => ""
  | some id => " #" ++ Numeral.ofNat id.toNat

def quotedText (s : String) : String := "\"" ++ s ++ "\""

def attributeText : Attribute → String
  | .flag key => quotedText key
  | .keyValue key value => quotedText key ++ "=" ++ quotedText value

/-! ## Lines -/

/-- A line for an instruction of a module. -/
def instructionLine (m : Module) : Instruction → String
  | .call callee args =>
    "  call " ++ resultText ((m.declaration? callee).bind (·.result)) ++ " @" ++ callee ++ "(" ++
      joined ", " (args.map operandText) ++ ")"
  | .ret => "  ret void"

def declarationLine (d : Declaration) : String :=
  "declare " ++ resultText d.result ++ " @" ++ d.name ++ "(" ++
    joined ", " (d.params.map typeText) ++ ")" ++ groupSuffix d.attributes

def headerLine (f : Function) : String :=
  "define " ++ resultText f.result ++ " @" ++ f.name ++ "()" ++ groupSuffix f.attributes ++
    " \x7b"

def blockLines (m : Module) (b : Block) : List String :=
  (b.label ++ ":") :: b.instructions.map (instructionLine m)

/-- The lines between the braces of a function: its blocks with an empty line between them, and
one empty line if there is no block. -/
def bodyLines (m : Module) : List Block → List String
  | [] => [""]
  | [b] => blockLines m b
  | b :: bs => blockLines m b ++ "" :: bodyLines m bs

def functionLines (m : Module) (f : Function) : List String :=
  headerLine f :: bodyLines m f.blocks ++ ["\x7d"]

def groupLine (g : AttributeGroup) : String :=
  "attributes #" ++ Numeral.ofNat g.id.toNat ++ " = \x7b " ++
    joined " " (g.attributes.map attributeText) ++ " \x7d"

def flagValueText : FlagValue → String
  | .i32 v => "i32 " ++ Numeral.ofInt v.toInt
  | .bool b => "i1 " ++ boolText b

/-- The line of the flag with a number. -/
def flagLine (f : ModuleFlag) (number : Nat) : String :=
  "!" ++ Numeral.ofNat number ++ " = !\x7bi32 " ++ Numeral.ofNat f.behavior.toNat ++ ", !" ++
    quotedText f.key ++ ", " ++ flagValueText f.value ++ "\x7d"

/-- The line that lists the numbers of so many flags. -/
def flagListLine (count : Nat) : String :=
  "!llvm.module.flags = !\x7b" ++
    joined ", " ((List.range count).map fun i => "!" ++ Numeral.ofNat i) ++ "\x7d"

/-- The lines of a module. -/
def moduleLines (m : Module) : List String :=
  ["; ModuleID = '" ++ m.sourceName ++ "'", "source_filename = " ++ quotedText m.sourceName] ++
    m.declarations.flatMap (fun d => ["", declarationLine d]) ++
    m.functions.flatMap (fun f => "" :: functionLines m f) ++
    (if m.attributeGroups.isEmpty then [] else "" :: m.attributeGroups.map groupLine) ++
    (if m.flags.isEmpty then []
      else "" :: flagListLine m.flags.length :: "" :: m.flags.mapIdx fun i f => flagLine f i)

/-- A text made of lines, each ended by a line feed. -/
def unlines (lines : List String) : String :=
  lines.foldr (fun line rest => line ++ "\n" ++ rest) ""

/-- The text of a module. -/
def print (m : Module) : String := unlines (moduleLines m)

end CircuitQir.Assembly
