import CircuitQir.Proofs.Assembly.Grammar
import CircuitQir.Proofs.Bitcode.Modules
/-!
# The result types of calls

The result type of a call is stated three times: on the line that introduces the callee, on the
line of the call, and in the bitcode, where the record of the call names a function type by its
number. The bitcode and the line of the callee always agree: both are about the first function of
the name, the declarations ahead of the functions that are defined. The line of the call is about
the first declaration only. If there is none, it states no result, whatever the function that is
called yields (`resultTypes_of_call`).
-/

namespace CircuitQir

open Ir

namespace Assembly

/-! ## On a line -/

/-- The result type on a line, between what the line starts with and the name. -/
def statedResult : Rule (Option ValueType) := do
  Rule.choice [Rule.literal "  call ", Rule.literal "declare ", Rule.literal "define "]
  let result ← resultType
  Rule.literal " @"
  return result

/-- A line states a result type. -/
def States (line : String) (result : Option ValueType) : Prop :=
  ∃ rest, statedResult line.toList = .ok (result, rest)

/-- The first function of a name as a line introduces it. -/
def introduction? (m : Module) (name : String) : Option String :=
  match m.declaration? name with
  | some d => some (declarationLine d)
  | none => (m.functions.find? (·.name = name)).map headerLine

theorem statedResult_append {line : List Char} {result : Option ValueType} {rest : List Char}
    (h : Rule.choice [Rule.literal "  call ", Rule.literal "declare ", Rule.literal "define "] line =
      .ok ((), (resultText result).toList ++ (" @".toList ++ rest))) :
    statedResult line = .ok (result, rest) := by
  refine (Rule.bind_ok h).trans ?_
  refine (Rule.bind_ok (resultType_append _ _)).trans ?_
  exact (Rule.bind_ok (Rule.literal_append _ _)).trans rfl

theorem states_instructionLine (m : Module) (callee : String) (args : List Operand) :
    States (instructionLine m (.call callee args)) ((m.declaration? callee).bind (·.result)) := by
  obtain ⟨rest, hline⟩ : ∃ rest, (instructionLine m (.call callee args)).toList =
      "  call ".toList ++ ((resultText ((m.declaration? callee).bind (·.result))).toList ++
        (" @".toList ++ rest)) := by
    rw [instructionLine]
    exact ⟨_, by simp; rfl⟩
  refine ⟨rest, statedResult_append ?_⟩
  rw [hline]
  exact Rule.choice_ok _ (Rule.literal_append _ _)

theorem states_declarationLine (d : Declaration) : States (declarationLine d) d.result := by
  obtain ⟨rest, hline⟩ : ∃ rest, (declarationLine d).toList =
      "declare ".toList ++ ((resultText d.result).toList ++ (" @".toList ++ rest)) := by
    rw [declarationLine]
    exact ⟨_, by simp; rfl⟩
  refine ⟨rest, statedResult_append ?_⟩
  rw [hline]
  exact (Rule.choice_error _ _ (Rule.literal_error (by rfl))).trans
    (Rule.choice_ok _ (Rule.literal_append _ _))

theorem states_headerLine (f : Function) : States (headerLine f) f.result := by
  obtain ⟨rest, hline⟩ : ∃ rest, (headerLine f).toList =
      "define ".toList ++ ((resultText f.result).toList ++ (" @".toList ++ rest)) := by
    rw [headerLine]
    exact ⟨_, by simp; rfl⟩
  refine ⟨rest, statedResult_append ?_⟩
  rw [hline]
  exact (Rule.choice_error _ _ (Rule.literal_error (by rfl))).trans
    ((Rule.choice_error _ _ (Rule.literal_error (by rfl))).trans (Rule.literal_append _ _))

/-! ## The lines of a module -/

variable {m : Module}

theorem declarationLine_mem {d : Declaration} (hd : d ∈ m.declarations) :
    declarationLine d ∈ moduleLines m := by
  have hmem : declarationLine d ∈ m.declarations.flatMap fun d => ["", declarationLine d] :=
    List.mem_flatMap.mpr ⟨d, hd, by simp⟩
  simp only [moduleLines, List.mem_append]
  exact .inl (.inl (.inl (.inr hmem)))

theorem functionLines_subset {f : Function} (hf : f ∈ m.functions) :
    functionLines m f ⊆ moduleLines m := by
  intro line hline
  have hmem : line ∈ m.functions.flatMap fun f => "" :: functionLines m f :=
    List.mem_flatMap.mpr ⟨f, hf, List.mem_cons_of_mem _ hline⟩
  simp only [moduleLines, List.mem_append]
  exact .inl (.inl (.inr hmem))

theorem headerLine_mem {f : Function} (hf : f ∈ m.functions) : headerLine f ∈ moduleLines m :=
  functionLines_subset hf List.mem_cons_self

theorem blockLines_subset {b : Block} : ∀ {bs : List Block}, b ∈ bs →
    blockLines m b ⊆ bodyLines m bs
  | [_], hb => by
    obtain rfl := List.mem_singleton.mp hb
    exact List.Subset.refl _
  | c :: d :: bs, hb => by
    rcases List.mem_cons.mp hb with rfl | hb
    · exact List.subset_append_left _ _
    · intro line hline
      exact List.mem_append_right _ (List.mem_cons_of_mem _ (blockLines_subset hb hline))

theorem instructionLine_mem {f : Function} (hf : f ∈ m.functions) {i : Instruction}
    (hi : i ∈ f.blocks.flatMap (·.instructions)) : instructionLine m i ∈ moduleLines m := by
  obtain ⟨b, hb, hi⟩ := List.mem_flatMap.mp hi
  have hline : instructionLine m i ∈ blockLines m b :=
    List.mem_cons_of_mem _ (List.mem_map_of_mem hi)
  exact functionLines_subset hf (List.mem_cons_of_mem _
    (List.mem_append_left _ (blockLines_subset hb hline)))

end Assembly

namespace Bitcode

open Bitstream

variable {m : Module} {callee : String} {args : List Operand}

/-! ## In a record -/

/-- The result of the function type that the record of a call names, looked up in the types that
the bitcode of the module lists. -/
def namedResult (m : Module) (r : Record) : Checked (Option ValueType) := do
  let t ← (Item.listEntries [] [typesItem (.ofModule m)]).foldlM Tables.read (.empty [])
  match r.code, r.ops with
  | FunctionCode.call, _ :: _ :: type :: _ => return (← t.signature type).1
  | _, _ => reject .shortCall

/-- Every instruction has a record, in the order of the instructions. -/
theorem getElem?_instructionItems (l : Layout) {i : Instruction} :
    ∀ {is : List Instruction} {k : Nat} (next : Nat), is[k]? = some i →
      ∃ next', (Item.listEntries [] (instructionItems l next is))[k]? =
        some (.record (instructionRecord l next' i))
  | [], _, _, h => by simp at h
  | j :: is, 0, next, h => by
    obtain rfl := Option.some.inj h
    exact ⟨next, by rw [listEntries_instructionItems]; rfl⟩
  | j :: is, k + 1, next, h => by
    obtain ⟨next', hrecord⟩ := getElem?_instructionItems l
      (if l.yields j then next + 1 else next) (List.getElem?_cons_succ ▸ h)
    exact ⟨next', by rw [listEntries_instructionItems, List.getElem?_cons_succ, hrecord]⟩

/-- In the body of a function the records of its instructions stand behind the number of blocks. -/
theorem getElem?_bodyEntries (l : Layout) {f : Function} {i : Instruction} {k : Nat}
    (h : (f.blocks.flatMap (·.instructions))[k]? = some i) :
    ∃ next, (bodyEntries l f)[k + 1]? = some (.record (instructionRecord l next i)) := by
  obtain ⟨next, hrecord⟩ := getElem?_instructionItems l l.valueCount h
  refine ⟨next, ?_⟩
  rw [bodyEntries, List.getElem?_cons_succ, List.getElem?_append_left, hrecord]
  exact (List.getElem?_eq_some_iff.mp hrecord).1

/-- The record of a call names the type of the first function of the name. -/
theorem namedResult_callOps {c : Callable}
    (hc : (Callable.all m).find? (·.name == callee) = some c) (next : Nat) :
    namedResult m (instructionRecord (.ofModule m) next (.call callee args)) = .ok c.result := by
  have htype : (Layout.ofModule m).callType callee args = c.type := by
    rw [Layout.callType, Layout.callables_ofModule, hc]
  have hsignature := Tables.signature_typeId
    (t := { Tables.empty [] with types := (Layout.ofModule m).types.map (.ofStored (.ofModule m)) })
    rfl (Layout.callable_mem m (List.mem_of_find?_eq_some hc))
  rw [namedResult, bind_of_ok (Tables.read_typesItem _ _)]
  simp only [instructionRecord, callOps, List.cons_append, htype]
  exact (bind_of_ok hsignature _).trans rfl

end Bitcode

/-! ## In both -/

variable {m : Module}

/-- The first function of a name, and the line that introduces it. -/
theorem exists_introduction {name : String}
    (h : (∃ d ∈ m.declarations, d.name = name) ∨ ∃ f ∈ m.functions, f.name = name) :
    ∃ c line, (Bitcode.Callable.all m).find? (·.name == name) = some c ∧
      Assembly.introduction? m name = some line ∧ line ∈ Assembly.moduleLines m ∧
      Assembly.States line c.result := by
  rw [Bitcode.Callable.find?_all, Assembly.introduction?]
  cases hd : m.declaration? name with
  | some d =>
    exact ⟨_, _, rfl, rfl, Assembly.declarationLine_mem (List.mem_of_find?_eq_some hd),
      Assembly.states_declarationLine d⟩
  | none =>
    have hname : ∃ f ∈ m.functions, f.name = name := by
      refine h.resolve_left ?_
      rintro ⟨d, hmem, hd'⟩
      exact absurd (decide_eq_true hd') (List.find?_eq_none.mp hd d hmem)
    cases hf : m.functions.find? (·.name = name) with
    | some f =>
      exact ⟨_, _, rfl, rfl, Assembly.headerLine_mem (List.mem_of_find?_eq_some hf),
        Assembly.states_headerLine f⟩
    | none =>
      obtain ⟨f, hmem, hf'⟩ := hname
      exact absurd (decide_eq_true hf') (List.find?_eq_none.mp hf f hmem)

/-- Whatever a call of a function of the module is a call of, the result type of the function type
that its record names is the one on the line that introduces the callee. The line of the call
states it too if the callee is declared, and otherwise states that there is no result. -/
theorem resultTypes_of_call {f : Function} {k : Nat} {callee : String} {args : List Operand}
    (hf : f ∈ m.functions)
    (hk : (f.blocks.flatMap (·.instructions))[k]? = some (.call callee args))
    (hcallee : (∃ d ∈ m.declarations, d.name = callee) ∨ ∃ g ∈ m.functions, g.name = callee) :
    ∃ result line record stated,
      (Assembly.introduction? m callee = some line ∧ line ∈ Assembly.moduleLines m ∧
        Assembly.States line result) ∧
      ((Bitcode.bodyEntries (.ofModule m) f)[k + 1]? = some (.record record) ∧
        Bitcode.namedResult m record = .ok result) ∧
      (Assembly.instructionLine m (.call callee args) ∈ Assembly.moduleLines m ∧
        Assembly.States (Assembly.instructionLine m (.call callee args)) stated) ∧
      ((∃ d ∈ m.declarations, d.name = callee) → stated = result) ∧
      ((∀ d ∈ m.declarations, d.name ≠ callee) → stated = none) := by
  obtain ⟨c, line, hc, hintroduction⟩ := exists_introduction hcallee
  obtain ⟨next, hrecord⟩ := Bitcode.getElem?_bodyEntries (.ofModule m) hk
  refine ⟨c.result, line, _, _, hintroduction, ⟨hrecord, Bitcode.namedResult_callOps hc next⟩,
    ⟨Assembly.instructionLine_mem hf (List.mem_of_getElem? hk),
      Assembly.states_instructionLine m callee args⟩, ?_, ?_⟩
  · rintro ⟨d, hmem, hd⟩
    have hsome : (m.declaration? callee).isSome = true :=
      List.find?_isSome.mpr ⟨d, hmem, by simpa using hd⟩
    obtain ⟨e, hfirst⟩ := Option.isSome_iff_exists.mp hsome
    rw [Bitcode.Callable.find?_all, hfirst] at hc
    obtain rfl := Option.some.inj hc
    rw [hfirst]
    rfl
  · intro hundeclared
    have hnone : m.declaration? callee = none :=
      List.find?_eq_none.mpr fun d hd => by simpa using hundeclared d hd
    rw [hnone]
    rfl

/-- A function that calls another one, which yields an integer. -/
def caller : Function := ⟨"main", none, none, [⟨"entry", [.call "value" [], .ret]⟩]⟩

/-- Both functions. Nothing is declared. -/
def callOfDefined : Module where
  sourceName := "source"
  declarations := []
  functions := [⟨"value", some .i64, none, [⟨"entry", [.ret]⟩]⟩, caller]
  attributeGroups := []
  flags := []

theorem resultTypes_of_callOfDefined :
    caller ∈ callOfDefined.functions ∧
      (caller.blocks.flatMap (·.instructions))[0]? = some (.call "value" []) ∧
      (∃ g ∈ callOfDefined.functions, g.name = "value") ∧
      ∃ result line record stated,
        (Assembly.introduction? callOfDefined "value" = some line ∧
          line ∈ Assembly.moduleLines callOfDefined ∧ Assembly.States line result) ∧
        ((Bitcode.bodyEntries (.ofModule callOfDefined) caller)[1]? = some (.record record) ∧
          Bitcode.namedResult callOfDefined record = .ok result) ∧
        (Assembly.instructionLine callOfDefined (.call "value" []) ∈
            Assembly.moduleLines callOfDefined ∧
          Assembly.States (Assembly.instructionLine callOfDefined (.call "value" [])) stated) ∧
        ((∃ d ∈ callOfDefined.declarations, d.name = "value") → stated = result) ∧
        ((∀ d ∈ callOfDefined.declarations, d.name ≠ "value") → stated = none) := by
  have hmem : caller ∈ callOfDefined.functions := by decide
  have hcall : (caller.blocks.flatMap (·.instructions))[0]? = some (.call "value" []) := by decide
  have hcallee : ∃ g ∈ callOfDefined.functions, g.name = "value" := by decide
  exact ⟨hmem, hcall, hcallee, resultTypes_of_call hmem hcall (.inr hcallee)⟩

/-- Every callee is a function of the module. All the same the line of the one call states no
result, where the line of the callee states one and the record of the call names it. -/
theorem resultTypes_differ :
    (∀ i ∈ callOfDefined.instructions, ∀ callee ∈ i.callee?,
      (∃ d ∈ callOfDefined.declarations, d.name = callee) ∨
        ∃ f ∈ callOfDefined.functions, f.name = callee) ∧
    Assembly.introduction? callOfDefined "value" = some "define i64 @value() \x7b" ∧
    Assembly.States "define i64 @value() \x7b" (some .i64) ∧
    Assembly.instructionLine callOfDefined (.call "value" []) = "  call void @value()" ∧
    Assembly.States "  call void @value()" none ∧
    ∃ record, (Bitcode.bodyEntries (.ofModule callOfDefined) caller)[1]? = some (.record record) ∧
      Bitcode.namedResult callOfDefined record = .ok (some .i64) := by
  have hcall : (caller.blocks.flatMap (·.instructions))[0]? = some (.call "value" []) := by decide
  obtain ⟨next, hrecord⟩ := Bitcode.getElem?_bodyEntries (.ofModule callOfDefined) hcall
  have hcallee : (Bitcode.Callable.all callOfDefined).find? (·.name == "value") =
      some ⟨"value", some .i64, [], false, none⟩ := by decide
  have hdefine : Assembly.States "define i64 @value() \x7b" (some .i64) :=
    ⟨"value() \x7b".toList, by decide +kernel⟩
  have hline : Assembly.States "  call void @value()" none :=
    ⟨"value()".toList, by decide +kernel⟩
  exact ⟨by decide, rfl, hdefine, rfl, hline, _, hrecord,
    Bitcode.namedResult_callOps hcallee next⟩

end CircuitQir
