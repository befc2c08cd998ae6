import CircuitQir.Proofs.Bitcode.Lookups
import CircuitQir.Proofs.Bitcode.Sizes
import CircuitQir.Proofs.Lists
/-!
# The writer never refers forward

The numbering of a module is dense, and whatever is described by other things has a larger number
than they have: function types come behind all types of values, pointers behind the integers, and
calls behind all functions and constants. Constants of one type stand together, which is why each
type has to be announced only once (`constantItems_flatMap`). None of this asks anything of the
module, and neither do the lookups, so every module is written (`refersBack_ofModule`).
-/

namespace CircuitQir.Bitcode

open Ir Bitstream

/-! ## Dense numbers -/

/-- Where nothing is repeated, the places of the elements are all places in order. -/
theorem map_idxOf {α : Type} [DecidableEq α] {xs : List α} (h : xs.Nodup) :
    xs.map (xs.idxOf ·) = List.range xs.length := by
  refine List.ext_getElem (by simp) ?_
  intro i hi _
  rw [List.getElem_map, List.getElem_range, h.idxOf_getElem]

namespace Layout

variable (m : Module)

theorem nodup_types : (ofModule m).types.Nodup := nodup_eraseDups _

theorem nodup_constants : (ofModule m).constants.Nodup := by
  rw [constants_ofModule, List.nodup_flatMap]
  refine ⟨fun t _ => (nodup_eraseDups _).filter _, ?_⟩
  have htypes : StoredType.ofConstants.Nodup := by decide
  refine htypes.imp fun {s t} hne c hs ht => hne ?_
  rw [List.mem_filter, beq_iff_eq] at hs ht
  rw [← hs.2, ht.2]

theorem map_typeId : (ofModule m).types.map (ofModule m).typeId =
    List.range (ofModule m).types.length :=
  map_idxOf (nodup_types m)

theorem map_constantId : (ofModule m).constants.map (ofModule m).constantId =
    List.range' (ofModule m).callables.length (ofModule m).constants.length := by
  have h := congrArg (List.map ((ofModule m).callables.length + ·)) (map_idxOf (nodup_constants m))
  rw [List.map_map, ← List.range'_eq_map_range] at h
  exact h

/-! ## Nothing ahead -/

/-- The types that every table starts with have smaller numbers than all others. -/
theorem typeId_lt_of_basic {s t : StoredType} (hs : s ∈ StoredType.basic)
    (ht : t ∉ StoredType.basic) : (ofModule m).typeId s < (ofModule m).typeId t := by
  have hbasic : StoredType.basic.eraseDups = StoredType.basic := by decide
  have htypes : ∃ more, (ofModule m).types = StoredType.basic ++ more := by
    unfold ofModule
    dsimp only
    rw [List.append_assoc, List.eraseDups_append, hbasic]
    exact ⟨_, rfl⟩
  obtain ⟨more, htypes⟩ := htypes
  have hlt := List.idxOf_lt_length_of_mem hs
  rw [typeId, typeId, htypes, List.idxOf_append_of_mem hs, List.idxOf_append_of_notMem ht]
  omega

/-- The integer that a pointer is cast from has a smaller number than the pointer. -/
theorem constantId_ofAddress_lt {p : UInt64} (h : .pointer p ∈ (ofModule m).constants) :
    (ofModule m).constantId (.ofAddress p) < (ofModule m).constantId (.pointer p) := by
  obtain ⟨done, todo, hsplit, hfirst⟩ := List.eq_append_cons_of_mem h
  have haddress := ofAddress_mem_of_split m hsplit
  have hlt := List.idxOf_lt_length_of_mem haddress
  rw [constantId, constantId, hsplit, List.idxOf_append_of_mem haddress,
    List.idxOf_append_of_notMem hfirst]
  omega

end Layout

/-! ## Announcements of types -/

/-- The number of the type that an item announces. -/
def announced? : Item → Option Nat
  | .record ConstantCode.setType [type] => some type
  | _ => none

/-- Constants of one type behind the announcement of the type. -/
def sectionItems (l : Layout) (t : StoredType) : List Constant → List Item
  | [] => []
  | c :: cs => .record ConstantCode.setType [l.typeId t] :: (c :: cs).map (constantItem l)

section Sections

variable (l : Layout)

/-- No type is announced between constants of one type. -/
theorem constantItems_of_type {t : StoredType} (rest : List Constant) : ∀ {cs : List Constant},
    (∀ c ∈ cs, c.type = t) →
    constantItems l (some t) (cs ++ rest) =
      cs.map (constantItem l) ++ constantItems l (some t) rest
  | [], _ => rfl
  | c :: cs, h => by
    obtain ⟨rfl, hcs⟩ := List.forall_mem_cons.mp h
    rw [List.cons_append, constantItems, if_pos rfl, constantItems_of_type rest hcs]
    rfl

/-- If constants are sorted into groups by their types, each group that is not empty becomes one
section. -/
theorem constantItems_flatMap {group : StoredType → List Constant}
    (hgroup : ∀ t, ∀ c ∈ group t, c.type = t) : ∀ {ts : List StoredType}
    {current : Option StoredType}, ts.Nodup → (∀ t ∈ ts, current ≠ some t) →
    constantItems l current (ts.flatMap group) = ts.flatMap fun t => sectionItems l t (group t)
  | [], _, _, _ => rfl
  | t :: ts, current, hnodup, hcurrent => by
    obtain ⟨ht, hts⟩ := List.nodup_cons.mp hnodup
    obtain ⟨hnew, hcurrent⟩ := List.forall_mem_cons.mp hcurrent
    rw [List.flatMap_cons, List.flatMap_cons]
    cases hcs : group t with
    | nil => exact constantItems_flatMap hgroup hts hcurrent
    | cons c cs =>
      obtain ⟨rfl, htypes⟩ := List.forall_mem_cons.mp (hcs ▸ hgroup t)
      -- From here on the type of the group is the current one, and none of the later types is.
      have hlater : ∀ s ∈ ts, some c.type ≠ some s :=
        fun s hs heq => ht (Option.some.inj heq ▸ hs)
      rw [List.cons_append, constantItems, if_neg hnew, constantItems_of_type l _ htypes,
        constantItems_flatMap hgroup hts hlater]
      rfl

theorem announced?_constantItem (c : Constant) : announced? (constantItem l c) = none := by
  cases c <;> rfl

/-- A section announces its type, unless it is empty. -/
theorem announced_sectionItems (t : StoredType) (cs : List Constant) :
    (sectionItems l t cs).filterMap announced? = if cs = [] then [] else [l.typeId t] := by
  cases cs with
  | nil => rfl
  | cons c cs =>
    have hnone : ((c :: cs).map (constantItem l)).filterMap announced? = [] := by
      rw [List.filterMap_eq_nil_iff]
      intro i hi
      obtain ⟨c, -, rfl⟩ := List.mem_map.mp hi
      exact announced?_constantItem l c
    exact congrArg (l.typeId t :: ·) hnone

theorem announced_flatMap (group : StoredType → List Constant) (ts : List StoredType) :
    (ts.flatMap fun t => sectionItems l t (group t)).filterMap announced? =
      (ts.filter fun t => group t ≠ []).map l.typeId := by
  induction ts with
  | nil => rfl
  | cons t ts ih =>
    rw [List.flatMap_cons, List.filterMap_append, announced_sectionItems, ih]
    by_cases hempty : group t = []
    · rw [if_pos hempty, List.filter_cons_of_neg (by simpa using hempty), List.nil_append]
    · rw [if_neg hempty, List.filter_cons_of_pos (by simpa using hempty)]
      rfl

end Sections

variable (m : Module)

/-- The constants of a module are written as one section for each type. -/
theorem constantItems_ofModule :
    constantItems (.ofModule m) none (Layout.ofModule m).constants =
      StoredType.ofConstants.flatMap fun t =>
        sectionItems (.ofModule m) t ((Layout.named m).eraseDups.filter (·.type == t)) := by
  rw [Layout.constants_ofModule]
  refine constantItems_flatMap _ (fun t c hc => ?_) (by decide) (fun t _ => nofun)
  exact beq_iff_eq.mp (List.mem_filter.mp hc).2

/-- The types that are announced in the table of constants, by their numbers. -/
def announcements : List Nat :=
  (constantItems (.ofModule m) none (Layout.ofModule m).constants).filterMap announced?

/-- Nothing but the types of constants is announced. -/
theorem mem_announcements {id : Nat} : id ∈ announcements m ↔
    ∃ c ∈ (Layout.ofModule m).constants, (Layout.ofModule m).typeId c.type = id := by
  rw [announcements, constantItems_ofModule, announced_flatMap]
  simp only [List.mem_map, List.mem_filter, decide_eq_true_eq, ne_eq, List.filter_eq_nil_iff,
    Layout.mem_constants]
  constructor
  · rintro ⟨t, ⟨-, hgroup⟩, rfl⟩
    push Not at hgroup
    obtain ⟨c, hc, ht⟩ := hgroup
    exact ⟨c, List.mem_eraseDups.mp hc, congrArg _ (beq_iff_eq.mp ht)⟩
  · rintro ⟨c, hc, rfl⟩
    refine ⟨c.type, ⟨(Layout.named_inRange m hc).type_mem, fun hgroup => ?_⟩, rfl⟩
    exact hgroup c (List.mem_eraseDups.mpr hc) (beq_self_eq_true c.type)

/-- No type is announced twice. -/
theorem nodup_announcements : (announcements m).Nodup := by
  have htypes : StoredType.ofConstants.Nodup := by decide
  have hbasic : StoredType.ofConstants ⊆ StoredType.basic := by decide
  rw [announcements, constantItems_ofModule, announced_flatMap]
  refine List.Nodup.map_on ?_ (htypes.filter _)
  intro s hs t _ heq
  have hmem := Layout.basic_mem m (hbasic (List.mem_of_mem_filter hs))
  exact (List.idxOf_inj hmem).mp heq

/-! ## Calls -/

/-- The number of the instruction at a place, which counts the values before it. -/
def Layout.numberAt (l : Layout) (is : List Instruction) (k : Nat) : Nat :=
  l.valueCount + (is.take k).countP l.yields

/-- The operands of a call with the number `next` count back to its callee, if there is a function
of the name, and to the constants of its arguments, by at least one. Other callees are the call
itself. -/
def CountsBack (l : Layout) (next : Nat) (callee : String) (args : List Operand)
    (ops : List Nat) : Prop :=
  ∃ back backs, ops = [0, 2 ^ explicitTypeBit, l.typeId (l.callType callee args), back] ++ backs ∧
    ((∃ c ∈ l.callables, c.name = callee) →
      ∃ id, l.calleeId? callee = some id ∧ id + back = next ∧ 1 ≤ back) ∧
    ((∀ c ∈ l.callables, c.name ≠ callee) → back = 0) ∧
    List.Forall₂ (fun a b => l.constantId (.ofOperand a) + b = next ∧ 1 ≤ b) args backs

theorem countsBack_callOps {m : Module} {next : Nat}
    (hnext : (Layout.ofModule m).valueCount ≤ next) {callee : String} {args : List Operand}
    (h : .call callee args ∈ m.instructions) :
    CountsBack (.ofModule m) next callee args (callOps (.ofModule m) next callee args) := by
  refine ⟨_, _, rfl, ?_, ?_, ?_⟩
  · rintro ⟨c, hc, hname⟩
    have hsome : ((Layout.ofModule m).calleeId? callee).isSome = true := by
      rw [Layout.calleeId?, List.findIdx?_isSome]
      exact List.any_eq_true.mpr ⟨c, hc, beq_iff_eq.mpr hname⟩
    obtain ⟨id, hid⟩ := Option.isSome_iff_exists.mp hsome
    have hlt := calleeId_lt hnext hid
    rw [hid]
    exact ⟨id, rfl, Nat.add_sub_of_le (Nat.le_of_lt hlt), Nat.sub_pos_of_lt hlt⟩
  · intro hnames
    have hnone : (Layout.ofModule m).calleeId? callee = none := by
      rw [Layout.calleeId?, List.findIdx?_eq_none_iff]
      exact fun c hc => beq_eq_false_iff_ne.mpr (hnames c hc)
    rw [hnone]
  · rw [List.forall₂_map_right_iff]
    refine List.forall₂_same.mpr fun a ha => ?_
    have hlt := argumentId_lt hnext h ha
    omega

/-- The record of a call has the number of its place. -/
theorem getElem?_instructionItems_call (l : Layout) {callee : String} {args : List Operand} :
    ∀ {is : List Instruction} {k : Nat} (next : Nat), is[k]? = some (.call callee args) →
      (instructionItems l next is)[k]? = some (.record FunctionCode.call
        (callOps l (next + (is.take k).countP l.yields) callee args))
  | i :: is, 0, next, h => by
    obtain rfl := Option.some.inj h
    rfl
  | i :: is, k + 1, next, h => by
    have hrest := getElem?_instructionItems_call l (if l.yields i then next + 1 else next)
      (List.getElem?_cons_succ ▸ h)
    have hnumber : next + ((i :: is).take (k + 1)).countP l.yields =
        (if l.yields i then next + 1 else next) + (is.take k).countP l.yields := by
      rw [List.take_succ_cons, List.countP_cons]
      split <;> omega
    rw [hnumber, ← hrest]
    cases i <;> rfl

/-! ## All of it -/

/-- The writer finds what it looks up, its numbers are dense, and nothing that it writes refers to
what comes later. -/
structure RefersBack (m : Module) : Prop where
  /-- No lookup of the writer fails, and no difference that it writes is negative. -/
  lookups : items? m = some (items m)
  /-- All numbers fit the widths that they are written with. -/
  widths : ∀ f ∈ magicFields magic ++ Item.listFields topLevelWidth (items m), f.Valid
  /-- Types are numbered from zero on, without gaps and each once. -/
  types : (Layout.ofModule m).types.Nodup ∧
    (Layout.ofModule m).types.map (Layout.ofModule m).typeId =
      List.range (Layout.ofModule m).types.length
  /-- Constants are numbered behind the functions, without gaps and each once. -/
  constants : (Layout.ofModule m).constants.Nodup ∧
    (Layout.ofModule m).constants.map (Layout.ofModule m).constantId =
      List.range' (Layout.ofModule m).callables.length (Layout.ofModule m).constants.length
  /-- The types of results and parameters come before the function type. -/
  functionTypes : ∀ result params,
    .function result params ∈ (Layout.ofModule m).types →
    ∀ t ∈ .ofResult result :: params.map StoredType.ofValueType,
      (Layout.ofModule m).typeId t < (Layout.ofModule m).typeId (.function result params)
  /-- The integer that a pointer is cast from comes before the pointer. -/
  pointers : ∀ p, .pointer p ∈ (Layout.ofModule m).constants →
    Constant.ofAddress p ∈ (Layout.ofModule m).constants ∧
      (Layout.ofModule m).constantId (.ofAddress p) < (Layout.ofModule m).constantId (.pointer p)
  /-- Constants are written type by type, each type announced ahead of its constants. -/
  sections : constantItems (.ofModule m) none (Layout.ofModule m).constants =
    StoredType.ofConstants.flatMap fun t =>
      sectionItems (.ofModule m) t ((Layout.named m).eraseDups.filter (·.type == t))
  /-- The type of each constant is announced once. -/
  announcedOnce : ∀ c ∈ (Layout.ofModule m).constants,
    (announcements m).count ((Layout.ofModule m).typeId c.type) = 1
  /-- Only types of constants are announced. -/
  announced : ∀ id ∈ announcements m,
    ∃ c ∈ (Layout.ofModule m).constants, (Layout.ofModule m).typeId c.type = id
  /-- Calls count back to their callees and arguments. -/
  calls : ∀ f ∈ m.functions, ∀ k callee args,
    (f.blocks.flatMap (·.instructions))[k]? = some (.call callee args) →
    ∃ ops, (instructionItems (.ofModule m) (Layout.ofModule m).valueCount
        (f.blocks.flatMap (·.instructions)))[k]? = some (.record FunctionCode.call ops) ∧
      CountsBack (.ofModule m)
        ((Layout.ofModule m).numberAt (f.blocks.flatMap (·.instructions)) k) callee args ops

/-- Every module is written in this way, well formed or not. -/
theorem refersBack_ofModule : RefersBack m where
  lookups := items?_eq m
  widths := valid_stream magic (forest_items_valid m)
  types := ⟨Layout.nodup_types m, Layout.map_typeId m⟩
  constants := ⟨Layout.nodup_constants m, Layout.map_constantId m⟩
  functionTypes := by
    intro result params _ t ht
    have hfunction : StoredType.function result params ∉ StoredType.basic := by
      simp [StoredType.basic]
    refine Layout.typeId_lt_of_basic m ?_ hfunction
    rcases List.mem_cons.mp ht with rfl | ht
    · exact StoredType.ofResult_mem result
    · obtain ⟨p, -, rfl⟩ := List.mem_map.mp ht
      exact StoredType.ofValueType_mem p
  pointers := by
    intro p hp
    exact ⟨ofAddress_mem m hp, Layout.constantId_ofAddress_lt m hp⟩
  sections := constantItems_ofModule m
  announcedOnce := by
    intro c hc
    exact List.count_eq_one_of_mem (nodup_announcements m) ((mem_announcements m).mpr ⟨c, hc, rfl⟩)
  announced := fun _ hid => (mem_announcements m).mp hid
  calls := by
    intro f hf k callee args hk
    have hmem : .call callee args ∈ m.instructions :=
      instructions_subset m hf (List.mem_of_getElem? hk)
    refine ⟨_, getElem?_instructionItems_call _ _ hk, ?_⟩
    exact countsBack_callOps (Nat.le_add_right _ _) hmem

end CircuitQir.Bitcode
