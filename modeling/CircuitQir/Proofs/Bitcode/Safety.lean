import CircuitQir.Proofs.Bitcode.Closed
import CircuitQir.Proofs.Bitstream.Safety
/-!
# Reading bitcode is safe

Whatever the bytes are, reading them ends with a module or an error, and on the way there is no
operation outside of its range (`Safe`). For the container that is `SafeContainer`. What is left are
the operations on the tables: a number of an attribute list is lowered by one, the sign of a number
is turned round, and the function a value stands for is taken out of the table of functions. The
first two are in range because of what is looked at just before, the third because every value in
the tables and bodies that reading comes to (`Tables.Reached`, `Body.Reached`) was made for a
function that was there.
-/

namespace CircuitQir.Bitcode

open Ir Bitstream

variable {bytes : List UInt8}

/-! ## Tables and bodies on the way -/

/-- The tables that reading some bytes comes to, each with the entries that are still to be read. -/
inductive Tables.Reached (bytes : List UInt8) : Tables → List Entry → Prop
  | start {blocks : List Bitstream.Block} {b : Bitstream.Block}
    (h : Bitstream.decode magic bytes = .ok blocks)
    (hb : blocks.find? (·.id = BlockId.module) = some b) :
    Reached bytes (empty (stringTableOf blocks)) b.entries
  | read {t t' : Tables} {e : Entry} {es : List Entry} (h : Reached bytes t (e :: es))
    (hread : t.read e = .ok t') : Reached bytes t' es

/-- The function bodies that reading some bytes comes to with the given tables, each with the
entries that are still to be read. -/
inductive Body.Reached (bytes : List UInt8) (t : Tables) : Body → List Entry → Prop
  | start {entries es : List Entry} {f : FunctionEntry} {result : Option ValueType}
    {params : List ValueType} (h : t.Reached bytes (.block BlockId.function entries :: es))
    (hf : t.defined[t.bodies.length]? = some f)
    (hparams : t.signature f.type = .ok (result, params)) :
    Reached bytes t ⟨t.values ++ params.map (fun _ => Value.other), [], 0⟩ entries
  | read {b b' : Body} {e : Entry} {es : List Entry} {labels : List (Nat × String)} {size : Nat}
    (h : Reached bytes t b (e :: es)) (hread : b.read t labels size e = .ok b') :
    Reached bytes t b' es

theorem Tables.Reached.linked {t : Tables} {es : List Entry} (h : t.Reached bytes es) :
    t.Linked := by
  induction h with
  | start h hb => exact linked_empty _
  | read _ hread ih => exact ih.read hread

theorem Body.Reached.linked {t : Tables} {b : Body} {es : List Entry} (h : Reached bytes t b es) :
    b.Linked t.functions := by
  induction h with
  | start h => exact .start h.linked.values
  | read _ hread ih => exact ih.read hread

/-- The numbers of the records that are still to be read fit into words. -/
theorem Tables.Reached.small {t : Tables} {es : List Entry} (h : t.Reached bytes es) :
    ∀ e ∈ es, e.Small := by
  induction h with
  | start h hb =>
    exact (safeContainer rfl bytes).contents _ h _ (List.mem_of_find?_eq_some hb)
  | read _ _ ih => exact (List.forall_mem_cons.mp ih).2

theorem Body.Reached.small {t : Tables} {b : Body} {es : List Entry} (h : Reached bytes t b es) :
    ∀ e ∈ es, e.Small := by
  induction h with
  | start h =>
    obtain hblock := (List.forall_mem_cons.mp h.small).1
    cases hblock with
    | block h => exact h
  | read _ _ ih => exact (List.forall_mem_cons.mp ih).2

/-! ## Operations on words -/

/-- The attributes of a list, which the table has at the place one below its number. -/
def Tables.attributes? (t : Tables) (list : UInt64) : Option (Checked (Option UInt32)) :=
  if list = 0 then some (.ok none)
  else do
    let place ← subtract? list 1
    match t.attributeLists[place.toNat]? with
    | none => return reject (.unknownList list.toNat)
    | some [group] =>
      match t.groups.find? (·.1 = group) with
      | some (_, g) => return .ok (some g.id)
      | none => return reject (.unknownGroup group)
    | some _ => return reject .severalGroups

theorem Tables.attributes?_eq (t : Tables) (list : UInt64) :
    t.attributes? list = some (t.attributes list.toNat) := by
  by_cases hlist : list = 0
  · subst hlist
    rfl
  · have hne : list.toNat ≠ 0 := fun h => hlist (UInt64.toNat_inj.mp h)
    obtain ⟨place, hplace, hnat⟩ := exists_subtract? (x := list) (y := 1)
      (UInt64.le_iff_toNat_le.mpr (Nat.one_le_iff_ne_zero.mpr hne))
    obtain ⟨i, hi⟩ := Nat.exists_eq_succ_of_ne_zero hne
    rw [hi] at hnat
    replace hnat : place.toNat = i := hnat
    rw [attributes?, if_neg hlist, hplace, hi, attributes, Option.bind_eq_bind, Option.bind_some,
      hnat]
    rcases t.attributeLists[i]? with _ | _ | ⟨group, _ | ⟨second, more⟩⟩
    · rfl
    · rfl
    · dsimp only
      cases t.groups.find? (·.1 = group) <;> rfl
    · rfl

/-- A number with its sign turned round. The least number has no such number. -/
def negated? (x : Int64) : Option Int64 := if x = Int64.minValue then none else some (-x)

/-- A word as a signed number, which is zero for a word that is too large. -/
def signed (x : UInt64) : Int64 := if x.toNat < 2 ^ 63 then Int64.ofNat x.toNat else 0

/-- The signed number with the given encoding. -/
def decodeSigned? (n : UInt64) : Option Int64 :=
  let magnitude := n >>> 1
  if n &&& 1 = 0 then some (signed magnitude)
  else if magnitude = 0 then some Int64.minValue
  else negated? (signed magnitude)

/-- The half of a word is not too large for a signed number, nor is it the least one. -/
theorem exists_decodeSigned? (n : UInt64) :
    ∃ v, decodeSigned? n = some v ∧ v.toInt = decodeSigned n.toNat := by
  have hhalf : (n >>> 1).toNat = n.toNat / 2 := by
    rw [UInt64.toNat_shiftRight]
    exact Nat.shiftRight_eq_div_pow _ 1
  have hlow : n &&& 1 = 0 ↔ n.toNat % 2 = 0 := by
    rw [← UInt64.toNat_inj, UInt64.toNat_and]
    exact iff_of_eq (congrArg (· = 0) (Nat.and_one_is_mod _))
  have hroom : n.toNat / 2 < 2 ^ 63 := by
    have := n.toNat_lt
    omega
  have hsigned : (signed (n >>> 1)).toInt = (n.toNat / 2 : Nat) := by
    rw [signed, if_pos (by omega), Int64.toInt_ofNat_of_lt (by omega), hhalf]
  rw [decodeSigned?, decodeSigned]
  by_cases heven : n.toNat % 2 = 0
  · rw [if_pos (hlow.mpr heven), if_pos heven]
    exact ⟨_, rfl, hsigned⟩
  rw [if_neg (hlow.not.mpr heven), if_neg heven]
  have hzero : n >>> 1 = 0 ↔ n.toNat / 2 = 0 := by
    rw [← UInt64.toNat_inj, hhalf, UInt64.toNat_zero]
  by_cases hleast : n.toNat / 2 = 0
  · rw [if_pos (hzero.mpr hleast), if_pos hleast]
    exact ⟨_, rfl, Int64.toInt_minValue⟩
  · rw [if_neg (hzero.not.mpr hleast), if_neg hleast]
    have hne : signed (n >>> 1) ≠ Int64.minValue := by
      intro h
      rw [h, Int64.toInt_minValue] at hsigned
      omega
    refine ⟨_, if_neg hne, ?_⟩
    rw [Int64.toInt_neg, hsigned]
    exact Int.bmod_eq_of_le (by omega) (by omega)

/-- The function that a value of a body stands for is taken out of the table by its place. -/
theorem Body.Reached.exists_function {t : Tables} {b : Body} {es : List Entry}
    (h : Reached bytes t b es) {place i : Nat} (hi : b.values[place]? = some (Value.function i)) :
    ∃ f, t.functions[i]? = some f ∧ (t.functions.map (·.name)).getD i "" = f.name := by
  have hlt : i < t.functions.length := h.linked.values i (List.mem_of_getElem? hi)
  refine ⟨t.functions[i], List.getElem?_eq_getElem hlt, ?_⟩
  rw [List.getD_eq_getElem?_getD, List.getElem?_map, List.getElem?_eq_getElem hlt]
  rfl

/-! ## The whole file -/

/-- What makes reading some bytes safe. -/
structure Safe (bytes : List UInt8) : Prop where
  /-- Reading ends with a module or an error. -/
  ends : (∃ m, decode bytes = .ok m) ∨ ∃ e, decode bytes = .error e
  /-- The container is read without a fault. -/
  container : SafeContainer magic bytes
  /-- The number of an attribute list is lowered only if it is not zero. -/
  lists : ∀ (t : Tables) (list : UInt64), t.attributes? list = some (t.attributes list.toNat)
  /-- A value that a call refers to as a function stands for one in the table. -/
  functions : ∀ (t : Tables) (b : Body) (es : List Entry), b.Reached bytes t es → ∀ place i : Nat,
    b.values[place]? = some (Value.function i) →
      ∃ f, t.functions[i]? = some f ∧ (t.functions.map (·.name)).getD i "" = f.name
  /-- The sign of the least number, which has no opposite, is never turned round. -/
  signs : ∀ n : UInt64, ∃ v, decodeSigned? n = some v ∧ v.toInt = decodeSigned n.toNat
  /-- The numbers that these operations are done on are words. -/
  words : (∀ t es, Tables.Reached bytes t es → ∀ e ∈ es, e.Small) ∧
    ∀ t b es, Body.Reached bytes t b es → ∀ e ∈ es, e.Small

/-- Reading is safe, whatever the bytes are. -/
theorem safe_decode (bytes : List UInt8) : Safe bytes where
  ends := by
    cases decode bytes with
    | ok m => exact .inl ⟨m, rfl⟩
    | error e => exact .inr ⟨e, rfl⟩
  container := safeContainer rfl bytes
  lists := Tables.attributes?_eq
  functions _ _ _ h _ _ hi := h.exists_function hi
  signs := exists_decodeSigned?
  words := ⟨fun _ _ h => h.small, fun _ _ _ h => h.small⟩

end CircuitQir.Bitcode
