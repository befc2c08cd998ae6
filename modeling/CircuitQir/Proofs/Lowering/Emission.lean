import CircuitQir.Lowering.Emission
import CircuitQir.Proofs.Checked
/-!
# Emission in parts

Operations can be emitted in parts: what comes out for two lists, one behind the other, is what
emission of the second makes of what the first has left behind, unless the first has already ended
(`EntryBlock.emit_append`). So an emission that ends at some operation leaves what the operations
before it do and nothing else. Positions are counted from the start of the circuit, and they are
all that tells where an operation stands.
-/

namespace CircuitQir

/-- The error as it is reported where `n` more operations come first. -/
def Error.behind (n : Nat) : Error → Error
  | operation position fault => .operation (n + position) fault
  | layout register issue => .layout register issue
  | disagreement d => .disagreement d
  | malformed m => .malformed m

namespace EntryBlock

variable {registers : List Register} {options : Options} {b b' : EntryBlock}

/-- Goes on behind `n` operations with what they came to, unless one of them ended it. -/
def resume (n : Nat) (next : EntryBlock → EntryBlock × Option Error) :
    EntryBlock × Option Error → EntryBlock × Option Error
  | (b, some e) => (b, some e)
  | (b, none) => ((next b).1, (next b).2.map (Error.behind n))

/-! ## One operation -/

theorem emitFrom_of_omitted {o : Operation} (h : o.isOmitted options = true) (b : EntryBlock)
    (position : Nat) (os : List Operation) :
    b.emitFrom registers options position (o :: os) =
      b.emitFrom registers options (position + 1) os :=
  if_pos h

theorem emitFrom_of_called {o : Operation} {i : Intrinsic} {args : List Ir.Operand}
    (homitted : o.isOmitted options = false) (h : o.callOf registers = .ok (i, args))
    (b : EntryBlock) (position : Nat) (os : List Operation) :
    b.emitFrom registers options position (o :: os) =
      (b.call i args).emitFrom registers options (position + 1) os := by
  rw [emitFrom, homitted, if_neg Bool.false_ne_true, h]

theorem emitFrom_of_refused {o : Operation} {f : OperationFault}
    (homitted : o.isOmitted options = false) (h : o.callOf registers = .error f)
    (b : EntryBlock) (position : Nat) (os : List Operation) :
    b.emitFrom registers options position (o :: os) = (b, some (.operation position f)) := by
  rw [emitFrom, homitted, if_neg Bool.false_ne_true, h]

/-- Whatever is emitted before an operation, it is passed over, becomes a call or is refused. -/
theorem emitFrom_cases (registers : List Register) (options : Options) (o : Operation) :
    o.isOmitted options = true ∨ o.isOmitted options = false ∧
      ((∃ i args, o.callOf registers = .ok (i, args)) ∨ ∃ f, o.callOf registers = .error f) := by
  cases homitted : o.isOmitted options with
  | true => exact .inl rfl
  | false =>
    right
    cases hcall : o.callOf registers with
    | ok call => exact ⟨rfl, .inl ⟨call.1, call.2, rfl⟩⟩
    | error f => exact ⟨rfl, .inr ⟨f, rfl⟩⟩

/-! ## Many operations -/

/-- A later start shows in the position of the error and nowhere else. -/
theorem emitFrom_add (n : Nat) : ∀ (os : List Operation) (b : EntryBlock) (position : Nat),
    b.emitFrom registers options (n + position) os =
      ((b.emitFrom registers options position os).1,
        (b.emitFrom registers options position os).2.map (Error.behind n))
  | [], _, _ => rfl
  | o :: os, b, position => by
    rcases emitFrom_cases registers options o with
      homitted | ⟨homitted, ⟨i, args, hcall⟩ | ⟨f, hcall⟩⟩
    · simp only [emitFrom_of_omitted homitted]
      exact emitFrom_add n os b (position + 1)
    · simp only [emitFrom_of_called homitted hcall]
      exact emitFrom_add n os (b.call i args) (position + 1)
    · simp only [emitFrom_of_refused homitted hcall]
      rfl

/-- The operations behind others are emitted from where those leave off, if they do not end it. -/
theorem emitFrom_append (ys : List Operation) :
    ∀ (xs : List Operation) (b : EntryBlock) (position : Nat),
      b.emitFrom registers options position (xs ++ ys) =
        match b.emitFrom registers options position xs with
        | (b', some e) => (b', some e)
        | (b', none) => b'.emitFrom registers options (position + xs.length) ys
  | [], _, _ => rfl
  | o :: xs, b, position => by
    have hlength : position + (o :: xs).length = position + 1 + xs.length := by
      rw [List.length_cons]
      omega
    rw [List.cons_append, hlength]
    rcases emitFrom_cases registers options o with
      homitted | ⟨homitted, ⟨i, args, hcall⟩ | ⟨f, hcall⟩⟩
    · simp only [emitFrom_of_omitted homitted]
      exact emitFrom_append ys xs b (position + 1)
    · simp only [emitFrom_of_called homitted hcall]
      exact emitFrom_append ys xs (b.call i args) (position + 1)
    · simp only [emitFrom_of_refused homitted hcall]

/-- An emission that ends does so at an operation that is refused, with what those before it have
come to. -/
theorem exists_of_emitFrom_error {e : Error} :
    ∀ {os : List Operation} {b : EntryBlock} {position : Nat},
      b.emitFrom registers options position os = (b', some e) →
      ∃ before o after f, os = before ++ o :: after ∧ o.isOmitted options = false ∧
        o.callOf registers = .error f ∧ e = .operation (position + before.length) f ∧
        b.emitFrom registers options position before = (b', none)
  | o :: os, b, position, h => by
    rcases emitFrom_cases registers options o with
      homitted | ⟨homitted, ⟨i, args, hcall⟩ | ⟨f, hcall⟩⟩
    · rw [emitFrom_of_omitted homitted] at h
      obtain ⟨before, x, after, f, rfl, hx, hf, rfl, hbefore⟩ := exists_of_emitFrom_error h
      refine ⟨o :: before, x, after, f, rfl, hx, hf, by rw [List.length_cons]; congr 1; omega, ?_⟩
      rw [emitFrom_of_omitted homitted, hbefore]
    · rw [emitFrom_of_called homitted hcall] at h
      obtain ⟨before, x, after, f, rfl, hx, hf, rfl, hbefore⟩ := exists_of_emitFrom_error h
      refine ⟨o :: before, x, after, f, rfl, hx, hf, by rw [List.length_cons]; congr 1; omega, ?_⟩
      rw [emitFrom_of_called homitted hcall, hbefore]
    · rw [emitFrom_of_refused homitted hcall] at h
      obtain ⟨rfl, he⟩ := Prod.mk.inj h
      obtain rfl := Option.some.inj he
      exact ⟨[], o, os, f, rfl, homitted, hcall, rfl, rfl⟩

/-! ## Circuits -/

section

variable (b : EntryBlock) (c : Circuit) (options : Options)

theorem emit_operations_append (xs ys : List Operation) :
    b.emit { c with operations := xs ++ ys } options =
      resume xs.length (·.emit { c with operations := ys } options)
        (b.emit { c with operations := xs } options) := by
  -- Behind `xs`, positions start from its length; the emission of `ys` alone starts from 0.
  have happend := @emitFrom_append c.registers options ys xs b 0
  have hlater (b' : EntryBlock) := @emitFrom_add c.registers options xs.length ys b' 0
  simp only [emit, happend]
  split
  · rename_i hxs
    rw [hxs]
    rfl
  · rename_i b' hxs
    rw [hxs, Nat.zero_add, ← Nat.add_zero xs.length, hlater]
    rfl

theorem emit_eq_error_iff {e : Error} :
    b.emit c options = (b', some e) ↔ ∃ position o f, c.operations[position]? = some o ∧
      o.isOmitted options = false ∧ o.callOf c.registers = .error f ∧
      e = .operation position f ∧
      b.emit { c with operations := c.operations.take position } options = (b', none) := by
  constructor
  · intro h
    obtain ⟨before, o, after, f, hos, homitted, hf, rfl, hbefore⟩ := exists_of_emitFrom_error h
    refine ⟨before.length, o, f, ?_, homitted, hf, by rw [Nat.zero_add], ?_⟩
    · simp [hos]
    · rw [emit, hos, List.take_left]
      exact hbefore
  · rintro ⟨position, o, f, ho, homitted, hf, rfl, hbefore⟩
    obtain ⟨hposition, ho⟩ := List.getElem?_eq_some_iff.mp ho
    have hsplit : c.operations.take position ++ o :: c.operations.drop (position + 1) =
        c.operations := by
      rw [← ho, ← List.drop_eq_getElem_cons hposition, List.take_append_drop]
    have hlength : (c.operations.take position).length = position :=
      List.length_take_of_le (Nat.le_of_lt hposition)
    have hwhole := emit_operations_append b c options (c.operations.take position)
      (o :: c.operations.drop (position + 1))
    rw [hsplit, hbefore, hlength] at hwhole
    rw [hwhole, resume, emit, emitFrom_of_refused homitted hf]
    rfl

/-- Emission of two lists of operations, one behind the other, is emission of the first and then of
the second, which counts its positions from where the first ends. And where an emission is ended,
an operation has been refused: nothing has come of it and of those behind it, and what there is are
the operations before it. -/
theorem emit_append :
    (∀ xs ys, b.emit { c with operations := xs ++ ys } options =
      resume xs.length (·.emit { c with operations := ys } options)
        (b.emit { c with operations := xs } options)) ∧
    ∀ b' e, b.emit c options = (b', some e) ↔ ∃ position o f,
      c.operations[position]? = some o ∧ o.isOmitted options = false ∧
      o.callOf c.registers = .error f ∧ e = .operation position f ∧
      b.emit { c with operations := c.operations.take position } options = (b', none) :=
  ⟨emit_operations_append b c options, fun _ _ => emit_eq_error_iff b c options⟩

end

/-- The second of two operations is refused, and the first one's call is kept. -/
example : (start "" "").emit ⟨"", 1, [⟨.reset, [0], [], [], none⟩, ⟨.measure, [0], [], [], none⟩],
    []⟩ .default = ((start "" "").call Intrinsic.reset [.pointer 0],
      some (.operation 1 (.reference .missingResult))) := by
  decide +kernel

end EntryBlock

end CircuitQir
