import CircuitQir.Bitcode.Body
import CircuitQir.Proofs.Bitcode.Flags
/-!
# Reading calls back

A call counts back from its own number to its callee and its arguments. Behind the functions and
constants of a module that leads to the right ones (`callOf_callOps`), unless the callee is no
function of the module or takes another number of arguments: then the call is not read at all
(`callOf_callOps_error`).
-/

namespace CircuitQir.Bitcode

open Ir Bitstream

/-- The values that the functions and constants of a module are read as. -/
def Layout.values (l : Layout) : List Value :=
  (List.range' 0 l.callables.length).map .function ++ l.constants.map .constant

/-- The tables hold the types, functions and constants of a module, under the same numbers. -/
structure Tables.Knows (t : Tables) (m : Module) : Prop where
  types : t.HasTypes (.ofModule m)
  functions : t.functions = (Callable.all m).map (.ofCallable (.ofModule m) m.attributeGroups)
  values : t.values = (Layout.ofModule m).values

namespace Layout

variable {m : Module}

theorem length_values (l : Layout) : l.values.length = l.valueCount := by
  simp [values, valueCount]

theorem values_function {i : Nat} {l : Layout} (hi : i < l.callables.length) (rest : List Value) :
    (l.values ++ rest)[i]? = some (.function i) := by
  rw [values, List.append_assoc, List.getElem?_append_left (by simpa using hi),
    List.getElem?_map, List.getElem?_range' hi]
  simp

theorem values_constant {c : Constant} (hc : c ∈ (ofModule m).constants) (rest : List Value) :
    ((ofModule m).values ++ rest)[(ofModule m).constantId c]? = some (.constant c) :=
  values_constantId (by simp) (List.append_nil _).symm hc rest

theorem constantId_lt {c : Constant} {l : Layout} (hc : c ∈ l.constants) :
    l.constantId c < l.valueCount := by
  have := List.idxOf_lt_length_of_mem hc
  unfold constantId valueCount
  omega

/-- Counting back from behind the values of a module leads to the constant of an argument. -/
theorem values_argument {c : Constant} (hc : c ∈ (ofModule m).constants) (rest : List Value) :
    let values := (ofModule m).values ++ rest
    ¬ values.length < values.length - (ofModule m).constantId c ∧
      values[values.length - (values.length - (ofModule m).constantId c)]? =
        some (.constant c) := by
  have hlt := constantId_lt hc
  have hlength : (ofModule m).valueCount ≤ ((ofModule m).values ++ rest).length := by
    rw [List.length_append, length_values]
    omega
  dsimp only
  rw [Nat.sub_sub_self (by omega)]
  exact ⟨by omega, values_constant hc rest⟩

end Layout

/-- Reads an argument, given how far it counts back from behind some values. -/
def argumentOf (values : List Value) (back : Nat) : Checked Operand :=
  if values.length < back then reject .forwardReference
  else
    match values[values.length - back]? with
    | some (.constant c) =>
      match c.operand? with
      | some o => .ok o
      | none => reject .argumentType
    | _ => refuse .computedArgument

/-- What a call comes down to once its callee is found. -/
def callTo (t : Tables) (values : List Value) (callee : String) (type : Nat)
    (args : List Nat) : Checked (Instruction × Bool) := do
  let (result, params) ← t.signature type
  if params.length ≠ args.length then
    reject (.argumentCount callee args.length params.length)
  else
    return (.call callee (← args.mapM (argumentOf values)), result.isSome)

theorem callTo_argumentCount {t : Tables} {result : Option ValueType} {params : List ValueType}
    {type : Nat} (hsignature : t.signature type = .ok (result, params)) (values : List Value)
    (callee : String) {args : List Nat} (h : params.length ≠ args.length) :
    callTo t values callee type args =
      .error (.invalid (.argumentCount callee args.length params.length)) := by
  rw [callTo, hsignature]
  show (if params.length ≠ args.length then _ else _) = _
  rw [if_pos h]
  rfl

theorem callOf_eq_callTo {t : Tables} {values : List Value} {type back f : Nat}
    (hback : back ≤ values.length) (hf : values[values.length - back]? = some (.function f))
    (args : List Nat) :
    callOf t values ([0, 2 ^ explicitTypeBit, type, back] ++ args) =
      callTo t values ((t.functions.map FunctionEntry.name).getD f "") type args := by
  have hflags : (2 ^ explicitTypeBit).testBit arithmeticFlagsBit = false := by decide
  have htype : (2 ^ explicitTypeBit).testBit explicitTypeBit = true := by decide
  simp only [callOf, List.cons_append, List.nil_append, hflags, htype, Bool.not_true,
    Bool.false_eq_true, if_false, if_neg (Nat.not_lt.mpr hback), hf]
  rfl

theorem callOf_self (t : Tables) (values : List Value) (type : Nat) (args : List Nat) :
    callOf t values ([0, 2 ^ explicitTypeBit, type, 0] ++ args) =
      .error (.unknownCallee values.length) := by
  have hflags : (2 ^ explicitTypeBit).testBit arithmeticFlagsBit = false := by decide
  have htype : (2 ^ explicitTypeBit).testBit explicitTypeBit = true := by decide
  have hnone : values[values.length - 0]? = none := List.getElem?_eq_none (Nat.le_refl _)
  simp only [callOf, List.cons_append, List.nil_append, hflags, htype, Bool.not_true,
    Bool.false_eq_true, if_false, Nat.not_lt_zero, hnone]
  rfl

variable {t : Tables} {m : Module} {callee : String} {args : List Operand}

/-- A call of a function of the module is read as one of that function, provided that its
arguments are. -/
theorem callOf_callOps_found (h : t.Knows m) (rest : List Value) {c : Callable}
    (hc : (Callable.all m).find? (·.name == callee) = some c) :
    callOf t (t.values ++ rest) (callOps (.ofModule m) (t.values ++ rest).length callee args) =
      callTo t (t.values ++ rest) callee ((Layout.ofModule m).typeId c.type)
        (args.map fun a =>
          (t.values ++ rest).length - (Layout.ofModule m).constantId (.ofOperand a)) := by
  rw [List.find?_eq_bind_findIdx?_getElem?] at hc
  obtain ⟨id, hid, hget⟩ := Option.bind_eq_some_iff.mp hc
  obtain ⟨hlt, hname, -⟩ := List.findIdx?_eq_some_iff_getElem.mp hid
  have hle : id ≤ (t.values ++ rest).length := by
    rw [h.values, List.length_append, Layout.length_values, Layout.valueCount,
      Layout.callables_ofModule]
    omega
  have hfunction : (t.values ++ rest)[(t.values ++ rest).length -
      ((t.values ++ rest).length - id)]? = some (.function id) := by
    rw [Nat.sub_sub_self hle, h.values]
    exact Layout.values_function hlt rest
  have hcallee : (t.functions.map FunctionEntry.name).getD id "" = callee := by
    rw [h.functions, List.map_map, List.getD_eq_getElem?_getD, List.getElem?_map,
      List.getElem?_eq_getElem hlt]
    exact beq_iff_eq.mp hname
  have htype : (Layout.ofModule m).callType callee args = c.type := by
    rw [Layout.callType, Layout.callables_ofModule, List.find?_eq_bind_findIdx?_getElem?, hc]
  rw [callOps, Layout.calleeId?, Layout.callables_ofModule, hid]
  dsimp only
  rw [callOf_eq_callTo (Nat.sub_le _ _) hfunction, hcallee, htype]

/-- A call that fits the module is read back. -/
theorem callOf_callOps (h : t.Knows m) (rest : List Value)
    (hmem : .call callee args ∈ m.instructions) (hfit : m.arity? callee = some args.length) :
    callOf t (t.values ++ rest) (callOps (.ofModule m) (t.values ++ rest).length callee args) =
      .ok (.call callee args, (Layout.ofModule m).returnsValue callee) := by
  rw [Callable.arity?_eq] at hfit
  obtain ⟨c, hc, hlength⟩ := Option.map_eq_some_iff.mp hfit
  have hargs : (args.map fun a =>
      (t.values ++ rest).length - (Layout.ofModule m).constantId (.ofOperand a)).mapM
        (argumentOf (t.values ++ rest)) = .ok args := by
    rw [List.mapM_map, mapM_ok (g := id), List.map_id]
    intro a ha
    obtain ⟨hback, hvalue⟩ :=
      Layout.values_argument (Layout.ofOperand_mem m hmem ha) rest
    rw [Function.comp_apply, argumentOf, h.values, if_neg hback, hvalue]
    dsimp only
    rw [Constant.operand?_ofOperand]
    rfl
  have hreturns : (Layout.ofModule m).returnsValue callee = c.result.isSome := by
    rw [Layout.returnsValue, Layout.callables_ofModule, hc]
    rfl
  rw [callOf_callOps_found h rest hc, callTo, Callable.type,
    Tables.signature_typeId h.types (Layout.callable_mem m (List.mem_of_find?_eq_some hc))]
  show (if c.params.length ≠ _ then _ else _) = _
  rw [if_neg (by simpa using hlength), hargs, hreturns]
  rfl

/-- A call that does not fit the module is not read. -/
theorem callOf_callOps_error (h : t.Knows m) (rest : List Value)
    (hfit : m.arity? callee ≠ some args.length) :
    ∃ e, callOf t (t.values ++ rest)
      (callOps (.ofModule m) (t.values ++ rest).length callee args) = .error e := by
  rw [Callable.arity?_eq] at hfit
  cases hc : (Callable.all m).find? (·.name == callee) with
  | none =>
    have hid : (Layout.ofModule m).calleeId? callee = none := by
      rw [Layout.calleeId?, Layout.callables_ofModule, List.findIdx?_eq_none_iff]
      simpa using hc
    rw [callOps, hid]
    exact ⟨_, callOf_self _ _ _ _⟩
  | some c =>
    have hlength : c.params.length ≠ args.length := by
      intro hlength
      exact hfit (by rw [hc, Option.map_some, hlength])
    have hsignature := Tables.signature_typeId h.types
      (Layout.callable_mem m (List.mem_of_find?_eq_some hc))
    rw [callOf_callOps_found h rest hc]
    exact ⟨_, callTo_argumentCount hsignature _ _ (by simpa using hlength)⟩

end CircuitQir.Bitcode
