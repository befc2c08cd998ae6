import CircuitQir.Assembly.Rule
import CircuitQir.Ir.Basic
/-!
# The lines of a module

One rule for each kind of line that says something about a module.
-/

namespace CircuitQir.Assembly

open Ir

/-! ## Parts of a line -/

/-- Whether a character may stand in a name. -/
def isNameCharacter (c : Char) : Bool := c.isAlphanum || c == '_' || c == '.' || c == '$'

def name : Rule String := return String.ofList (← Rule.many1 isNameCharacter)

/-- Text in double quotes. It has no way to contain one. -/
def quoted : Rule String := do
  Rule.literal "\""
  let cs ← Rule.many (· != '"')
  Rule.literal "\""
  return String.ofList cs

/-- A word that stands for a value. -/
def word {α : Type} (text : String) (value : α) : Rule α := do
  Rule.literal text
  return value

def valueType : Rule ValueType :=
  Rule.choice [word "i1" .i1, word "i64" .i64, word "double" .double, word "ptr" .ptr]

def resultType : Rule (Option ValueType) :=
  Rule.either (word "void" none) (return some (← valueType))

def boolean : Rule Bool := Rule.either (word "true" true) (word "false" false)

/-- The number of an attribute group at the end of a declaration or header. -/
def groupReference : Rule (Option UInt32) := do
  let id ← Rule.optional (do Rule.literal " #"; Rule.natural (2 ^ 32))
  return id.map UInt32.ofNat

def operand : Rule Operand :=
  Rule.choice
    [ (do Rule.literal "i1 "; return .bool (← boolean)),
      (do Rule.literal "i64 "; return .int (Int64.ofInt (← Rule.integer (2 ^ 63)))),
      (do Rule.literal "double "; return .double (← Rule.float)),
      word "ptr null" .null,
      (do
        Rule.literal "ptr inttoptr (i64 "
        let address ← Rule.natural (2 ^ 64)
        Rule.literal " to ptr)"
        return .pointer (UInt64.ofNat address)) ]

/-- A list in parentheses. -/
def parenthesized {α : Type} (item : Rule α) : Rule (List α) := do
  Rule.literal "("
  let items ← Rule.separated ", " item
  Rule.literal ")"
  return items

def groupMember : Rule Attribute := do
  let key ← quoted
  match ← Rule.optional (do Rule.literal "="; quoted) with
  | some value => return .keyValue key value
  | none => return .flag key

def flagValue : Rule FlagValue :=
  Rule.either
    (do Rule.literal "i32 "; return .i32 (Int32.ofInt (← Rule.integer (2 ^ 31))))
    (do Rule.literal "i1 "; return .bool (← boolean))

/-! ## Lines -/

def instruction : Rule Instruction :=
  Rule.either (word "ret void" .ret)
    (do
      Rule.literal "call "
      let _ ← resultType
      Rule.literal " @"
      let callee ← name
      return .call callee (← parenthesized operand))

def sourceName : Rule String := do
  Rule.literal "source_filename = "
  quoted

def declaration : Rule Declaration := do
  Rule.literal "declare "
  let result ← resultType
  Rule.literal " @"
  let name ← name
  let params ← parenthesized valueType
  return ⟨name, params, result, ← groupReference⟩

/-- The first line of a function, which has no blocks yet. -/
def header : Rule Function := do
  Rule.literal "define "
  let result ← resultType
  Rule.literal " @"
  let name ← name
  Rule.literal "()"
  let attributes ← groupReference
  Rule.literal " \x7b"
  return ⟨name, result, attributes, []⟩

def attributeGroup : Rule AttributeGroup := do
  Rule.literal "attributes #"
  let id ← Rule.natural (2 ^ 32)
  Rule.literal " = \x7b "
  let attributes ← Rule.separated " " groupMember
  Rule.literal " \x7d"
  return ⟨UInt32.ofNat id, attributes⟩

/-- A numbered module flag. Its number is of no consequence. -/
def moduleFlag : Rule ModuleFlag := do
  Rule.literal "!"
  let _ ← Rule.natural (2 ^ 32)
  Rule.literal " = !\x7bi32 "
  let behavior ← Rule.natural (2 ^ 32)
  Rule.literal ", !"
  let key ← quoted
  Rule.literal ", "
  let value ← flagValue
  Rule.literal "\x7d"
  return ⟨UInt32.ofNat behavior, key, value⟩

end CircuitQir.Assembly
