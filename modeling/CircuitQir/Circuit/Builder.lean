import CircuitQir.Circuit.Basic
/-!
# Building circuits

A `Circuit.Builder` adds registers and operations at the end of a circuit. Registers are laid out
one behind the other. An offset that would need more than 32 bits stays at the largest number of
32 bits.
-/

namespace CircuitQir

namespace Operation

/-- A gate on some targets, controlled by some other qubits. -/
def gate (g : Gate) (controls targets : List UInt32) : Operation :=
  ⟨.unitary g, targets, controls, [], none⟩

def inverse (g : Gate) (target : UInt32) : Operation := ⟨.adjoint g, [target], [], [], none⟩

def rotate (r : Rotation) (angle : Double) (targets : List UInt32) : Operation :=
  ⟨.rotation r, targets, [], [angle], none⟩

def delay (duration : Double) (unit : TimeUnit) (target : UInt32) : Operation :=
  ⟨.delay unit, [target], [], [duration], none⟩

def prepare (state : BasisState) (target : UInt32) : Operation :=
  ⟨.prepare state, [target], [], [], none⟩

def measure (target : UInt32) (register : String) (bit : UInt32) : Operation :=
  ⟨.measure, [target], [], [], some ⟨register, bit⟩⟩

def reset (target : UInt32) : Operation := ⟨.reset, [target], [], [], none⟩

def barrier (targets : List UInt32) : Operation := ⟨.barrier, targets, [], [], none⟩

end Operation

namespace Circuit

/-- A circuit to which more is added. -/
structure Builder where
  circuit : Circuit
  /-- Where the next register starts. -/
  nextOffset : UInt32

namespace Builder

/-- A circuit without registers and operations. -/
def new (name : String) (qubitCount : UInt32) : Builder := ⟨⟨name, qubitCount, [], []⟩, 0⟩

/-- The sum of two numbers, or the largest number if the sum is out of range. -/
def saturatingAdd (a b : UInt32) : UInt32 :=
  if a.toNat + b.toNat < 2 ^ 32 then a + b else UInt32.ofNat (2 ^ 32 - 1)

/-- Adds a register behind the others. -/
def register (b : Builder) (id : String) (size : UInt32) : Builder :=
  { circuit := { b.circuit with registers := b.circuit.registers ++ [⟨id, size, b.nextOffset⟩] }
    nextOffset := saturatingAdd b.nextOffset size }

/-- Adds an operation behind the others. -/
def push (b : Builder) (o : Operation) : Builder :=
  { b with circuit := { b.circuit with operations := b.circuit.operations ++ [o] } }

end Builder

end Circuit

end CircuitQir
