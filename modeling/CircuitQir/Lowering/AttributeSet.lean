/-!
# Sets of function attributes

The attributes that a function of a generated program can have, as the bits of a number, and the
attribute group that a set of them refers to.
-/

namespace CircuitQir

/-- A set of attributes, one bit for each. -/
structure AttributeSet where
  bits : UInt32
deriving DecidableEq, Repr

namespace AttributeSet

def empty : AttributeSet := ⟨0⟩

def entryPoint : AttributeSet := ⟨1⟩

/-- The function changes the state in a way that cannot be undone. -/
def irreversible : AttributeSet := ⟨2⟩

/-- The set with these bits, if all of them stand for attributes. -/
def ofBits? (bits : UInt32) : Option AttributeSet :=
  if bits &&& 3 = bits then some ⟨bits⟩ else none

/-- The attribute group for a set. Only sets of a single attribute have one. -/
def groupId? (s : AttributeSet) : Option UInt32 :=
  if s = entryPoint then some 0
  else if s = irreversible then some 1
  else none

@[simp]
theorem groupId?_entryPoint : entryPoint.groupId? = some 0 := rfl

@[simp]
theorem groupId?_irreversible : irreversible.groupId? = some 1 := rfl

end AttributeSet

end CircuitQir
