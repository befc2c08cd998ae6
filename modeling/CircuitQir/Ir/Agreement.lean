import CircuitQir.Ir.Basic
/-!
# Agreement of modules

Two modules agree when they are equal in everything but their doubles, and these are equal as
numbers: zeros of either sign agree, and a NaN agrees with nothing, not even with itself.
-/

namespace CircuitQir.Ir

/-- Whether two lists have the same length and agree element by element. -/
def agreeing {α : Type} (agrees : α → α → Bool) : List α → List α → Bool
  | [], [] => true
  | x :: xs, y :: ys => agrees x y && agreeing agrees xs ys
  | _, _ => false

def Operand.agrees : Operand → Operand → Bool
  | double a, double b => a.numericallyEqual b
  | a, b => a == b

def Instruction.agrees : Instruction → Instruction → Bool
  | call f xs, call g ys => f == g && agreeing Operand.agrees xs ys
  | ret, ret => true
  | _, _ => false

def Block.agrees (a b : Block) : Bool :=
  a.label == b.label && agreeing Instruction.agrees a.instructions b.instructions

def Function.agrees (f g : Function) : Bool :=
  f.name == g.name && f.result == g.result && f.attributes == g.attributes &&
    agreeing Block.agrees f.blocks g.blocks

def Module.agrees (m n : Module) : Bool :=
  m.sourceName == n.sourceName && m.declarations == n.declarations &&
    agreeing Function.agrees m.functions n.functions &&
    m.attributeGroups == n.attributeGroups && m.flags == n.flags

end CircuitQir.Ir
