import Mathlib.Data.List.Basic
import CircuitQir.Bitcode.Layout
/-!
# What a layout numbers

Everything a record of a module refers to has a number in the layout of the module: the types of
functions and calls (`callType_mem`), the constants of arguments and flags, and for every pointer
the integer it is cast from, which stands before it (`ofAddress_mem_of_split`).
-/

namespace CircuitQir.Ir.Module

/-- How many parameters the first function of a name has: the declarations come first, and
functions defined in the module have none. -/
def arity? (m : Module) (name : String) : Option Nat :=
  match m.declaration? name with
  | some d => some d.params.length
  | none => if m.functions.any (·.name = name) then some 0 else none

/-- A call names a function and passes as many arguments as the function has parameters. -/
def Fits (m : Module) : Instruction → Prop
  | .call callee args => m.arity? callee = some args.length
  | .ret => True

instance (m : Module) : DecidablePred m.Fits
  | .call callee args => inferInstanceAs (Decidable (m.arity? callee = some args.length))
  | .ret => isTrue trivial

/-- Every call fits. -/
def CallsFit (m : Module) : Prop := ∀ i ∈ m.instructions, m.Fits i

instance (m : Module) : Decidable m.CallsFit :=
  inferInstanceAs (Decidable (∀ i ∈ m.instructions, m.Fits i))

end CircuitQir.Ir.Module

namespace CircuitQir.Bitcode

open Ir

namespace Callable

/-- The first callable of a name is a declaration if there is one. -/
theorem find?_all (m : Module) (name : String) : (all m).find? (·.name == name) =
    ((m.declaration? name).map ofDeclaration).or
      ((m.functions.find? (·.name = name)).map ofFunction) := by
  have hdecl : (m.declarations.map ofDeclaration).find? (·.name == name) =
      (m.declaration? name).map ofDeclaration := by
    rw [List.find?_map, Module.declaration?]
    rfl
  have hfun : (m.functions.map ofFunction).find? (·.name == name) =
      (m.functions.find? (·.name = name)).map ofFunction := by
    rw [List.find?_map]
    rfl
  rw [all, List.find?_append, hdecl, hfun]

/-- The first callable of a name has the arity of the name. -/
theorem arity?_eq (m : Module) (name : String) :
    m.arity? name = ((all m).find? (·.name == name)).map (·.params.length) := by
  rw [find?_all, Module.arity?]
  cases hd : m.declaration? name with
  | some d => rfl
  | none =>
    cases hf : m.functions.find? (·.name = name) with
    | some f =>
      have hany : m.functions.any (·.name = name) = true :=
        List.any_eq_true.mpr ⟨f, List.mem_of_find?_eq_some hf, by simpa using List.find?_some hf⟩
      simp [hany, ofFunction]
    | none =>
      have hany : m.functions.any (·.name = name) = false :=
        List.any_eq_false.mpr (List.find?_eq_none.mp hf)
      simp [hany]

end Callable

/-- The constant is one of those that programs contain: an integer of a width that flags and
arguments have, within 64 bits, or no integer. -/
def Constant.InRange : Constant → Prop
  | .int width v => width ∈ [1, 32, 64] ∧ -2 ^ 63 ≤ v ∧ v < 2 ^ 63
  | _ => True

instance : DecidablePred Constant.InRange
  | .int width v => inferInstanceAs (Decidable (width ∈ [1, 32, 64] ∧ -2 ^ 63 ≤ v ∧ v < 2 ^ 63))
  | .double _ => isTrue trivial
  | .null => isTrue trivial
  | .pointer _ => isTrue trivial

namespace StoredType

/-- The types that constants have, in the order of their ranks. -/
def ofConstants : List StoredType := [.int 1, .int 32, .int 64, .double, .ptr]

/-- The rank of the constants of a type. -/
def rank : StoredType → Nat × Nat
  | .int width => (0, width)
  | .double => (1, 0)
  | _ => (2, 0)

/-- Constants of the first type stand ahead of those of the second. -/
def Ahead (s t : StoredType) : Prop :=
  s.rank.1 < t.rank.1 ∨ s.rank.1 = t.rank.1 ∧ s.rank.2 < t.rank.2

instance : DecidableRel Ahead := fun s t =>
  inferInstanceAs (Decidable (s.rank.1 < t.rank.1 ∨ s.rank.1 = t.rank.1 ∧ s.rank.2 < t.rank.2))

theorem Ahead.ne {s t : StoredType} (h : s.Ahead t) : s ≠ t := by
  rintro rfl
  unfold Ahead at h
  omega

theorem pairwise_ahead_ofConstants : ofConstants.Pairwise Ahead := by
  decide

end StoredType

namespace Constant

theorem InRange.type_mem {c : Constant} (h : c.InRange) : c.type ∈ StoredType.ofConstants := by
  cases c with
  | int width v =>
    obtain ⟨hw, -⟩ := h
    simp only [List.mem_cons, List.not_mem_nil, or_false] at hw
    rcases hw with rfl | rfl | rfl <;> simp [type, StoredType.ofConstants]
  | double d => simp [type, StoredType.ofConstants]
  | null => decide
  | pointer p => simp [type, StoredType.ofConstants]

/-! ## Ranks -/

theorem rank_eq (c : Constant) : c.rank = c.type.rank := by
  cases c <;> rfl

theorem mayPrecede_iff {c d : Constant} : c.mayPrecede d = true ↔ ¬ d.type.Ahead c.type := by
  simp only [mayPrecede, StoredType.Ahead, rank_eq, Bool.or_eq_true, Bool.and_eq_true,
    decide_eq_true_eq, beq_iff_eq]
  omega

theorem mayPrecede_of_type_eq {c d : Constant} (h : d.type = c.type) : c.mayPrecede d = true :=
  mayPrecede_iff.mpr fun hahead => hahead.ne h

theorem mayPrecede_of_ahead {c d : Constant} (h : c.type.Ahead d.type) : c.mayPrecede d = true := by
  rw [mayPrecede_iff]
  unfold StoredType.Ahead at h ⊢
  omega

theorem insertByRank_eq_cons {c : Constant} {ds : List Constant}
    (h : ∀ d ∈ ds, c.mayPrecede d = true) : insertByRank c ds = c :: ds := by
  cases ds with
  | nil => rfl
  | cons d ds => exact if_pos (h d List.mem_cons_self)

theorem insertByRank_append {c : Constant} {ds : List Constant}
    (h : ∀ d ∈ ds, c.mayPrecede d = false) (es : List Constant) :
    insertByRank c (ds ++ es) = ds ++ insertByRank c es := by
  induction ds with
  | nil => rfl
  | cons d ds ih =>
    obtain ⟨hd, hds⟩ := List.forall_mem_cons.mp h
    rw [List.cons_append, insertByRank, hd, if_neg Bool.false_ne_true, ih hds, List.cons_append]

/-- A constant goes ahead of the others of its type, behind all whose type is ahead of it. -/
theorem insertByRank_flatMap {c : Constant} (cs : List Constant) : ∀ {ts : List StoredType},
    ts.Pairwise StoredType.Ahead → c.type ∈ ts →
    insertByRank c (ts.flatMap fun t => cs.filter (·.type == t)) =
      ts.flatMap fun t => (c :: cs).filter (·.type == t)
  | t :: ts, hts, hc => by
    obtain ⟨ht, hts⟩ := List.pairwise_cons.mp hts
    rw [List.flatMap_cons, List.flatMap_cons]
    by_cases htype : c.type = t
    · subst htype
      have hrest : (ts.flatMap fun t => (c :: cs).filter (·.type == t)) =
          ts.flatMap fun t => cs.filter (·.type == t) := by
        refine List.flatMap_congr fun t hmem => List.filter_cons_of_neg ?_
        simpa using (ht t hmem).ne
      rw [hrest, List.filter_cons_of_pos (by simp), List.cons_append]
      refine insertByRank_eq_cons fun d hd => ?_
      rcases List.mem_append.mp hd with hd | hd
      · exact mayPrecede_of_type_eq (beq_iff_eq.mp (List.mem_filter.mp hd).2)
      · obtain ⟨t, hmem, hd⟩ := List.mem_flatMap.mp hd
        have htype : d.type = t := beq_iff_eq.mp (List.mem_filter.mp hd).2
        exact mayPrecede_of_ahead (htype ▸ ht t hmem)
    · have hmem : c.type ∈ ts := (List.mem_cons.mp hc).resolve_left htype
      have hbefore : ∀ d ∈ cs.filter (·.type == t), c.mayPrecede d = false := by
        intro d hd
        have hd : d.type = t := beq_iff_eq.mp (List.mem_filter.mp hd).2
        rw [Bool.eq_false_iff, ne_eq, mayPrecede_iff, hd, not_not]
        exact ht _ hmem
      rw [insertByRank_append hbefore, insertByRank_flatMap cs hts hmem,
        List.filter_cons_of_neg (by simpa using htype)]

/-- Sorting puts the constants of each type together and keeps their order. -/
theorem sortByRank_eq {cs : List Constant} (h : ∀ c ∈ cs, c.type ∈ StoredType.ofConstants) :
    sortByRank cs = StoredType.ofConstants.flatMap fun t => cs.filter (·.type == t) := by
  induction cs with
  | nil => rfl
  | cons c cs ih =>
    obtain ⟨hc, hcs⟩ := List.forall_mem_cons.mp h
    rw [← insertByRank_flatMap cs StoredType.pairwise_ahead_ofConstants hc, ← ih hcs]
    rfl

end Constant

namespace Layout

variable (m : Module)

theorem callables_ofModule : (ofModule m).callables = Callable.all m := rfl

/-! ## Types -/

theorem mem_types {t : StoredType} :
    t ∈ (ofModule m).types ↔ t ∈ StoredType.basic ∨
      (∃ c ∈ Callable.all m, c.type = t) ∨
      ∃ callee args, .call callee args ∈ m.instructions ∧
        (Callable.all m).any (·.name == callee) = false ∧ undeclaredType args = t := by
  simp only [ofModule, List.mem_eraseDups, List.mem_append, List.mem_map, List.mem_filterMap,
    or_assoc]
  refine or_congr_right (or_congr_right ⟨?_, ?_⟩)
  · rintro ⟨i, hi, ht⟩
    cases i with
    | ret => cases ht
    | call callee args =>
      refine ⟨callee, args, hi, ?_⟩
      cases hany : (Callable.all m).any (·.name == callee) with
      | true => simp [hany] at ht
      | false => exact ⟨rfl, by simpa [hany] using ht⟩
  · rintro ⟨callee, args, hi, hany, ht⟩
    exact ⟨_, hi, by simp [hany, ht]⟩

theorem basic_mem {t : StoredType} (h : t ∈ StoredType.basic) : t ∈ (ofModule m).types :=
  (mem_types m).mpr (Or.inl h)

/-- The integers among the types are those that a table starts with. -/
theorem int_mem {width : Nat} (h : .int width ∈ (ofModule m).types) : width < 2 ^ 32 := by
  rcases (mem_types m).mp h with h | ⟨c, -, hc⟩ | ⟨callee, args, -, -, ht⟩
  · simp only [StoredType.basic, List.mem_cons, StoredType.int.injEq, List.not_mem_nil, or_false,
      reduceCtorEq, false_or] at h
    omega
  · cases hc
  · cases ht

theorem callable_mem {c : Callable} (h : c ∈ Callable.all m) : c.type ∈ (ofModule m).types :=
  (mem_types m).mpr (Or.inr (Or.inl ⟨c, h, rfl⟩))

/-- A table of types holds the type that each call of the module names. -/
theorem callType_mem {callee : String} {args : List Operand}
    (h : .call callee args ∈ m.instructions) :
    (ofModule m).callType callee args ∈ (ofModule m).types := by
  unfold callType
  rw [callables_ofModule]
  split
  · rename_i c hc
    exact callable_mem m (List.mem_of_find?_eq_some hc)
  · rename_i hnone
    refine (mem_types m).mpr (Or.inr (Or.inr ⟨callee, args, h, ?_, rfl⟩))
    simpa [List.find?_eq_none] using hnone

/-- A number leads back to its type. -/
theorem types_typeId {l : Layout} {t : StoredType} (h : t ∈ l.types) :
    l.types[l.typeId t]? = some t :=
  List.getElem?_idxOf h

/-! ## Constants -/

/-- The constants that a module names, in the order in which they turn up. -/
def named (m : Module) : List Constant :=
  m.flags.flatMap flagConstants ++
    m.instructions.flatMap fun i => i.args.flatMap operandConstants

theorem named_inRange {c : Constant} (h : c ∈ named m) : c.InRange := by
  rcases List.mem_append.mp h with h | h
  · obtain ⟨f, -, hf⟩ := List.mem_flatMap.mp h
    simp only [flagConstants, List.mem_cons, List.not_mem_nil, or_false] at hf
    rcases hf with rfl | rfl
    · have := f.behavior.toNat_lt
      refine ⟨by decide, ?_, ?_⟩ <;> omega
    · cases f.value with
      | i32 v =>
        have hl := v.le_toInt
        have hu := v.toInt_lt
        refine ⟨by decide, ?_, ?_⟩ <;> omega
      | bool b => cases b <;> decide
  · obtain ⟨i, -, hi⟩ := List.mem_flatMap.mp h
    obtain ⟨o, -, ho⟩ := List.mem_flatMap.mp hi
    have hword : ∀ v : Int64, Constant.InRange (.int 64 v.toInt) := fun v =>
      ⟨by decide, v.le_toInt, v.toInt_lt⟩
    cases o with
    | pointer p =>
      simp only [operandConstants, List.mem_cons, List.not_mem_nil, or_false] at ho
      rcases ho with rfl | rfl
      · exact hword _
      · trivial
    | int v => exact List.mem_singleton.mp ho ▸ hword v
    | bool b =>
      obtain rfl := List.mem_singleton.mp ho
      cases b <;> decide
    | double d => exact List.mem_singleton.mp ho ▸ trivial
    | null => exact List.mem_singleton.mp ho ▸ trivial

/-- The constants of each type in the order in which they turn up. -/
theorem constants_ofModule : (ofModule m).constants =
    StoredType.ofConstants.flatMap fun t => (named m).eraseDups.filter (·.type == t) :=
  Constant.sortByRank_eq fun _ h => (named_inRange m (List.mem_eraseDups.mp h)).type_mem

theorem mem_constants {c : Constant} : c ∈ (ofModule m).constants ↔ c ∈ named m := by
  rw [constants_ofModule]
  simp only [List.mem_flatMap, List.mem_filter, List.mem_eraseDups, beq_iff_eq]
  constructor
  · rintro ⟨t, -, h, -⟩
    exact h
  · intro h
    exact ⟨c.type, (named_inRange m h).type_mem, h, rfl⟩

/-- The constant of each argument has a number. -/
theorem ofOperand_mem {callee : String} {args : List Operand}
    (h : .call callee args ∈ m.instructions) {o : Operand} (ho : o ∈ args) :
    Constant.ofOperand o ∈ (ofModule m).constants := by
  refine (mem_constants m).mpr (List.mem_append_right _ (List.mem_flatMap.mpr ⟨_, h, ?_⟩))
  refine List.mem_flatMap.mpr ⟨o, ho, ?_⟩
  cases o <;> simp [operandConstants, Constant.ofOperand]

/-- The constants of each flag have a number. -/
theorem flagConstants_mem {f : ModuleFlag} (h : f ∈ m.flags) {c : Constant}
    (hc : c ∈ flagConstants f) : c ∈ (ofModule m).constants :=
  (mem_constants m).mpr (List.mem_append_left _ (List.mem_flatMap.mpr ⟨f, h, hc⟩))

theorem ofAddress_mem_named {p : UInt64} (h : .pointer p ∈ named m) :
    Constant.ofAddress p ∈ named m := by
  rcases List.mem_append.mp h with h | h
  · obtain ⟨f, -, hf⟩ := List.mem_flatMap.mp h
    cases hv : f.value <;>
      simp [flagConstants, Constant.ofBehavior, Constant.ofFlagValue, Constant.ofBool, hv] at hf
  · obtain ⟨i, hi, ho⟩ := List.mem_flatMap.mp h
    obtain ⟨o, ho, hp⟩ := List.mem_flatMap.mp ho
    refine List.mem_append_right _ (List.mem_flatMap.mpr ⟨i, hi, List.mem_flatMap.mpr ⟨o, ho, ?_⟩⟩)
    cases o with
    | pointer q =>
      simp only [operandConstants, Constant.ofAddress, List.mem_cons, List.not_mem_nil, or_false,
        reduceCtorEq, false_or, Constant.pointer.injEq] at hp
      subst hp
      simp [operandConstants]
    | _ => simp [operandConstants, Constant.ofOperand, Constant.ofBool] at hp

/-- The integer that a pointer is cast from stands before the pointer. -/
theorem ofAddress_mem_of_split {p : UInt64} {done todo : List Constant}
    (h : (ofModule m).constants = done ++ .pointer p :: todo) : Constant.ofAddress p ∈ done := by
  let before := [StoredType.int 1, .int 32, .int 64, .double].flatMap fun t =>
    (named m).eraseDups.filter (·.type == t)
  have hcut : (ofModule m).constants =
      before ++ (named m).eraseDups.filter (·.type == StoredType.ptr) := by
    rw [constants_ofModule]
    simp [StoredType.ofConstants, before]
  have hpointer : .pointer p ∈ named m := by
    rw [← mem_constants, h]
    simp
  have haddress : Constant.ofAddress p ∈ before := by
    have := ofAddress_mem_named m hpointer
    simp [before, Constant.ofAddress, Constant.type]
    exact this
  have hnot : Constant.pointer p ∉ before := by
    simp [before, Constant.type]
  rw [hcut] at h
  rcases List.append_eq_append_iff.mp h with ⟨mid, rfl, -⟩ | ⟨mid, hbefore, hrest⟩
  · exact List.mem_append_left _ haddress
  · cases mid with
    | nil =>
      rw [List.append_nil] at hbefore
      exact hbefore ▸ haddress
    | cons c mid =>
      rw [List.cons_append, List.cons.injEq] at hrest
      refine absurd ?_ hnot
      rw [hbefore, hrest.1]
      simp

end Layout

end CircuitQir.Bitcode
