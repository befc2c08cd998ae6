import CircuitQir.Assembly.Grammar
import CircuitQir.Proofs.Assembly.Literals
/-!
# Reading lines back

Every part of a line that the printer writes is read back by the rule for that part, as long as
names are names and no text in quotes contains a quote. The equations are put together in the
order in which the parts stand in a line.
-/

namespace CircuitQir.Ir

/-- The operand is no NaN. -/
def Operand.IsNumber : Operand → Prop
  | .double d => d.isNaN = false
  | _ => True

instance : DecidablePred Operand.IsNumber
  | .double d => inferInstanceAs (Decidable (d.isNaN = false))
  | .bool _ | .int _ | .null | .pointer _ => isTrue trivial

/-- The operand can be told from its text: it is no NaN but the one that has a name. -/
def Operand.Legible : Operand → Prop
  | .double d => d.Legible
  | _ => True

theorem Operand.IsNumber.legible {o : Operand} (h : o.IsNumber) : o.Legible := by
  cases o with
  | double d => exact Double.legible_of_not_isNaN h
  | bool _ | int _ | null | pointer _ => trivial

/-- All operands in the block can be told from their text. -/
def Block.Legible (b : Block) : Prop := ∀ i ∈ b.instructions, ∀ o ∈ i.args, o.Legible

/-- The key of an attribute, and its value if it has one. -/
def Attribute.strings : Attribute → List String
  | .flag key => [key]
  | .keyValue key value => [key, value]

end CircuitQir.Ir

namespace CircuitQir.Assembly

open Ir Rule

/-- A word of characters that a name may have. -/
def IsName (s : String) : Prop := s ≠ "" ∧ ∀ c ∈ s.toList, isNameCharacter c = true

instance : DecidablePred IsName := fun s =>
  decidable_of_iff (s ≠ "" ∧ s.toList.all isNameCharacter = true) (by simp [IsName])

/-- A text that can stand in quotes on a line. -/
def Quotable (s : String) : Prop := '"' ∉ s.toList ∧ '\n' ∉ s.toList

instance : DecidablePred Quotable := fun s =>
  inferInstanceAs (Decidable ('"' ∉ s.toList ∧ '\n' ∉ s.toList))

/-! ## Words -/

variable {rest : List Char}

theorem name_append {s : String} (h : IsName s) (hrest : Stops isNameCharacter rest) :
    name (s.toList ++ rest) = .ok (s, rest) := by
  have hne : s.toList ≠ [] := by simpa using h.1
  refine (bind_ok (many1_append hne h.2 hrest)).trans ?_
  show Except.ok (String.ofList s.toList, rest) = _
  rw [String.ofList_toList]

theorem quoted_append {s : String} (h : '"' ∉ s.toList) (rest : List Char) :
    quoted ((quotedText s).toList ++ rest) = .ok (s, rest) := by
  have hall : ∀ c ∈ s.toList, (c != '"') = true := by
    intro c hc
    rw [bne_iff_ne]
    rintro rfl
    exact h hc
  have hline : (quotedText s).toList ++ rest =
      "\"".toList ++ (s.toList ++ ("\"".toList ++ rest)) := by
    simp [quotedText]
  rw [hline]
  refine (bind_ok (literal_append _ _)).trans ?_
  refine (bind_ok (many_append hall (stops_cons (by decide)))).trans ?_
  refine (bind_ok (literal_append _ _)).trans ?_
  show Except.ok (String.ofList s.toList, rest) = _
  rw [String.ofList_toList]

theorem valueType_append (t : ValueType) (rest : List Char) :
    valueType ((typeText t).toList ++ rest) = .ok (t, rest) := by
  cases t <;> rfl

theorem resultType_append (t : Option ValueType) (rest : List Char) :
    resultType ((resultText t).toList ++ rest) = .ok (t, rest) := by
  cases t with
  | none => rfl
  | some t => cases t <;> rfl

/-- The number of a group is read if it is there, and if nothing that follows looks like one. -/
theorem groupReference_append (id : Option UInt32) (hdigits : Stops Char.isDigit rest)
    (hnone : afterPrefix? [' ', '#'] rest = none) :
    groupReference ((groupSuffix id).toList ++ rest) = .ok (id, rest) := by
  cases id with
  | none =>
    have herror : (do literal " #"; natural (2 ^ 32) : Rule Nat) rest = .error rest :=
      bind_error _ (literal_error hnone)
    exact (bind_ok (optional_error herror)).trans rfl
  | some id =>
    have hline : (groupSuffix (some id)).toList ++ rest =
        " #".toList ++ ((Numeral.ofNat id.toNat).toList ++ rest) := by
      simp [groupSuffix]
    rw [hline]
    refine (bind_ok (optional_ok ((bind_ok (literal_append _ _)).trans
      (natural_toDigits id.toNat_lt hdigits)))).trans ?_
    show Except.ok (some (UInt32.ofNat id.toNat), rest) = _
    rw [UInt32.ofNat_toNat]

/-! ## Operands -/

theorem operand_append {o : Operand} (ho : o.Legible) (hrest : Stops goesOn rest) :
    operand ((operandText o).toList ++ rest) = .ok (o, rest) := by
  have hdigits : Stops Char.isDigit rest := hrest.mono fun c => isDigit_of_goesOn
  cases o with
  | bool b => cases b <;> rfl
  | int v =>
    have hline : (operandText (.int v)).toList ++ rest =
        "i64 ".toList ++ ((Numeral.ofInt v.toInt).toList ++ rest) := by
      rw [← List.append_assoc, ← String.toList_append]
      rfl
    rw [hline]
    refine (choice_error _ _ (bind_error _ (literal_error (by rfl)))).trans (choice_ok _ ?_)
    refine (bind_ok (literal_append _ _)).trans ((bind_ok (integer_int64 v hdigits)).trans ?_)
    show Except.ok (Operand.int (Int64.ofInt v.toInt), rest) = _
    rw [Int64.ofInt_toInt]
  | double d =>
    have hline : (operandText (.double d)).toList ++ rest =
        "double ".toList ++ (d.literal.toList ++ rest) := by
      rw [← List.append_assoc, ← String.toList_append]
      rfl
    rw [hline]
    refine (choice_error _ _ (bind_error _ (literal_error (by rfl)))).trans ?_
    refine (choice_error _ _ (bind_error _ (literal_error (by rfl)))).trans (choice_ok _ ?_)
    exact (bind_ok (literal_append _ _)).trans ((bind_ok (float_literal ho hrest)).trans rfl)
  | null => rfl
  | pointer p =>
    have hline : (operandText (.pointer p)).toList ++ rest = "ptr inttoptr (i64 ".toList ++
        ((Numeral.ofNat p.toNat).toList ++ (" to ptr)".toList ++ rest)) := by
      rw [← List.append_assoc, ← List.append_assoc, ← String.toList_append,
        ← String.toList_append]
      rfl
    rw [hline]
    refine (choice_error _ _ (bind_error _ (literal_error (by rfl)))).trans ?_
    refine (choice_error _ _ (bind_error _ (literal_error (by rfl)))).trans ?_
    refine (choice_error _ _ (bind_error _ (literal_error (by rfl)))).trans ?_
    refine (choice_error _ _ (bind_error _ (literal_error (by rfl)))).trans ?_
    refine (bind_ok (literal_append _ _)).trans ?_
    refine (bind_ok (natural_toDigits p.toNat_lt (stops_cons (by decide)))).trans ?_
    refine (bind_ok (literal_append _ _)).trans ?_
    show Except.ok (Operand.pointer (UInt64.ofNat p.toNat), rest) = _
    rw [UInt64.ofNat_toNat]

/-- A finite double is written with digits on both sides of a point. It is read back from its
literal by the rule for operands, wherever that ends, and so is an infinity. -/
theorem literal_written_and_read (d : Double) (hnan : d.isNaN = false) :
    (d.isFinite = true → ∃ whole fraction, d.IsWritten whole fraction) ∧
      ∀ rest, Stops goesOn rest →
        operand (("double " ++ d.literal).toList ++ rest) = .ok (.double d, rest) := by
  constructor
  · intro hfinite
    exact Double.exists_isWritten hfinite
  · intro rest hrest
    exact operand_append (o := .double d) (Double.legible_of_not_isNaN hnan) hrest

/-- A tenth is no double. The nearest double is written as a tenth, and read back. -/
theorem literal_written_and_read_tenth :
    (⟨0x3fb999999999999a⟩ : Double).isNaN = false ∧
      (⟨0x3fb999999999999a⟩ : Double).isFinite = true ∧
        (∃ whole fraction, (⟨0x3fb999999999999a⟩ : Double).IsWritten whole fraction) ∧
          (⟨0x3fb999999999999a⟩ : Double).literal = "0.1" ∧
            operand "double 0.1)".toList = .ok (.double ⟨0x3fb999999999999a⟩, [')']) := by
  have hnan : (⟨0x3fb999999999999a⟩ : Double).isNaN = false := by decide
  have hfinite : (⟨0x3fb999999999999a⟩ : Double).isFinite = true := by decide
  have hliteral : (⟨0x3fb999999999999a⟩ : Double).literal = "0.1" := by decide +kernel
  obtain ⟨hwritten, hread⟩ := literal_written_and_read ⟨0x3fb999999999999a⟩ hnan
  have hoperand := hread [')'] (stops_cons (by decide))
  rw [hliteral] at hoperand
  exact ⟨hnan, hfinite, hwritten hfinite, hliteral, hoperand⟩

/-! ## Lists -/

/-- A list in parentheses is read back if its items are, each in front of a comma or the closing
parenthesis, and no item starts with one. -/
theorem parenthesized_append {α : Type} {item : Rule α} {text : α → String} {xs : List α}
    (hitem : ∀ x ∈ xs, ∀ rest, Stops goesOn rest → item ((text x).toList ++ rest) = .ok (x, rest))
    (hclose : ∃ at_, item (')' :: rest) = .error at_) :
    parenthesized item (("(" ++ joined ", " (xs.map text) ++ ")").toList ++ rest) =
      .ok (xs, rest) := by
  have hline : ("(" ++ joined ", " (xs.map text) ++ ")").toList ++ rest =
      "(".toList ++ ((joined ", " (xs.map text)).toList ++ (")".toList ++ rest)) := by
    simp
  rw [hline]
  refine (bind_ok (literal_append _ _)).trans ?_
  refine (bind_ok (separated_joined (Stops goesOn) hitem
    (fun _ => stops_cons (by decide)) (by decide) (stops_cons (by decide))
    (bind_error _ (literal_error (by rfl))) hclose)).trans ?_
  exact (bind_ok (literal_append _ _)).trans rfl

theorem groupMember_append {a : Attribute} (ha : ∀ s ∈ a.strings, '"' ∉ s.toList)
    (hrest : Stops (· == '=') rest) :
    groupMember ((attributeText a).toList ++ rest) = .ok (a, rest) := by
  cases a with
  | flag key =>
    have herror : (do literal "="; quoted : Rule String) rest = .error rest := by
      refine bind_error _ (literal_error ?_)
      cases rest with
      | nil => rfl
      | cons c rest =>
        have hc : '=' ≠ c := by
          rintro rfl
          exact absurd (hrest '=' rfl) (by decide)
        exact if_neg hc
    refine (bind_ok (quoted_append (ha key (by simp [Attribute.strings])) rest)).trans ?_
    exact (bind_ok (optional_error herror)).trans rfl
  | keyValue key value =>
    have hline : (attributeText (.keyValue key value)).toList ++ rest = (quotedText key).toList ++
        ("=".toList ++ ((quotedText value).toList ++ rest)) := by
      simp [attributeText]
    rw [hline]
    refine (bind_ok (quoted_append (ha key (by simp [Attribute.strings])) _)).trans ?_
    refine (bind_ok (optional_ok ((bind_ok (literal_append _ _)).trans
      (quoted_append (ha value (by simp [Attribute.strings])) rest)))).trans ?_
    rfl

theorem flagValue_append (v : FlagValue) (hrest : Stops goesOn rest) :
    flagValue ((flagValueText v).toList ++ rest) = .ok (v, rest) := by
  cases v with
  | i32 v =>
    have hline : (flagValueText (.i32 v)).toList ++ rest =
        "i32 ".toList ++ ((Numeral.ofInt v.toInt).toList ++ rest) := by
      rw [flagValueText, String.toList_append, List.append_assoc]
    rw [hline]
    refine either_ok _ ((bind_ok (literal_append _ _)).trans ((bind_ok (integer_int32 v
      (hrest.mono fun c => isDigit_of_goesOn))).trans ?_))
    show Except.ok (FlagValue.i32 (Int32.ofInt v.toInt), rest) = _
    rw [Int32.ofInt_toInt]
  | bool b => cases b <;> rfl

/-! ## Lines -/

/-- The line of an instruction without its indentation. -/
def instructionText (m : Module) : Instruction → String
  | .call callee args =>
    "call " ++ resultText ((m.declaration? callee).bind (·.result)) ++ " @" ++ callee ++
      ("(" ++ joined ", " (args.map operandText) ++ ")")
  | .ret => "ret void"

theorem instructionText_ret (m : Module) : instructionText m .ret = "ret void" := rfl

theorem instructionLine_eq (m : Module) (i : Instruction) :
    instructionLine m i = "  " ++ instructionText m i := by
  cases i with
  | ret => rfl
  | call callee args =>
    simp only [instructionLine, instructionText, ← String.append_assoc]
    rfl

theorem instruction_call {m : Module} {callee : String} {args : List Operand}
    (hcallee : IsName callee) (hargs : ∀ o ∈ args, o.Legible) :
    instruction (instructionText m (.call callee args)).toList = .ok (.call callee args, []) := by
  have hline : (instructionText m (.call callee args)).toList =
      "call ".toList ++ ((resultText ((m.declaration? callee).bind (·.result))).toList ++
        (" @".toList ++ (callee.toList ++
          (("(" ++ joined ", " (args.map operandText) ++ ")").toList ++ [])))) := by
    simp [instructionText]
  rw [hline]
  refine (either_error _ (bind_error _ (literal_error (by rfl)))).trans ?_
  refine (bind_ok (literal_append _ _)).trans ?_
  refine (bind_ok (resultType_append _ _)).trans ?_
  refine (bind_ok (literal_append _ _)).trans ?_
  refine (bind_ok (name_append hcallee (by
    rw [String.toList_append, String.toList_append, List.append_assoc, List.append_assoc]
    exact stops_cons (by decide)))).trans ?_
  refine (bind_ok (parenthesized_append (fun o ho rest h => operand_append (hargs o ho) h)
    ⟨_, rfl⟩)).trans ?_
  rfl

theorem declaration_line {d : Declaration} (hname : IsName d.name) :
    declaration (declarationLine d).toList = .ok (d, []) := by
  have hline : (declarationLine d).toList =
      "declare ".toList ++ ((resultText d.result).toList ++ (" @".toList ++ (d.name.toList ++
        (("(" ++ joined ", " (d.params.map typeText) ++ ")").toList ++
          ((groupSuffix d.attributes).toList ++ []))))) := by
    simp [declarationLine]
  rw [hline]
  refine (bind_ok (literal_append _ _)).trans ?_
  refine (bind_ok (resultType_append _ _)).trans ?_
  refine (bind_ok (literal_append _ _)).trans ?_
  refine (bind_ok (name_append hname (by
    rw [String.toList_append, String.toList_append, List.append_assoc, List.append_assoc]
    exact stops_cons (by decide)))).trans ?_
  refine (bind_ok (parenthesized_append (fun t _ rest _ => valueType_append t rest)
    ⟨_, rfl⟩)).trans ?_
  refine (bind_ok (groupReference_append _ (stops_nil _) rfl)).trans ?_
  rfl

theorem header_line {f : Function} (hname : IsName f.name) :
    header (headerLine f).toList = .ok ({ f with blocks := [] }, []) := by
  have hline : (headerLine f).toList =
      "define ".toList ++ ((resultText f.result).toList ++ (" @".toList ++ (f.name.toList ++
        ("()".toList ++ ((groupSuffix f.attributes).toList ++ (" \x7b".toList ++ [])))))) := by
    simp [headerLine]
  rw [hline]
  refine (bind_ok (literal_append _ _)).trans ?_
  refine (bind_ok (resultType_append _ _)).trans ?_
  refine (bind_ok (literal_append _ _)).trans ?_
  refine (bind_ok (name_append hname (stops_cons (by decide)))).trans ?_
  refine (bind_ok (literal_append _ _)).trans ?_
  refine (bind_ok (groupReference_append _ (stops_cons (by decide)) rfl)).trans ?_
  refine (bind_ok (literal_append _ _)).trans ?_
  rfl

theorem sourceName_line {s : String} (h : '"' ∉ s.toList) :
    sourceName ("source_filename = " ++ quotedText s).toList = .ok (s, []) := by
  have hline : ("source_filename = " ++ quotedText s).toList =
      "source_filename = ".toList ++ ((quotedText s).toList ++ []) := by simp
  rw [hline]
  exact (bind_ok (literal_append _ _)).trans (quoted_append h [])

/-- The group members stop where the closing brace is, although a space stands before it as well
as between them. -/
theorem attributeGroup_line {g : AttributeGroup}
    (h : ∀ a ∈ g.attributes, ∀ s ∈ a.strings, '"' ∉ s.toList) :
    attributeGroup (groupLine g).toList = .ok (g, []) := by
  have hline : (groupLine g).toList =
      "attributes #".toList ++ ((Numeral.ofNat g.id.toNat).toList ++ (" = \x7b ".toList ++
        ((joined " " (g.attributes.map attributeText)).toList ++ (" \x7d".toList ++ [])))) := by
    simp [groupLine]
  have hend : (do literal " "; groupMember : Rule Attribute) (" \x7d".toList ++ []) =
      .error ['\x7d'] := rfl
  rw [hline]
  refine (bind_ok (literal_append _ _)).trans ?_
  refine (bind_ok (natural_toDigits g.id.toNat_lt (stops_cons (by decide)))).trans ?_
  refine (bind_ok (literal_append _ _)).trans ?_
  refine (bind_ok (separated_joined (Stops (· == '='))
    (fun a ha rest hrest => groupMember_append (h a ha) hrest) (fun _ => stops_cons (by decide))
    (by decide) (stops_cons (by decide)) hend ⟨_, rfl⟩)).trans ?_
  refine (bind_ok (literal_append _ _)).trans ?_
  show Except.ok (AttributeGroup.mk (UInt32.ofNat g.id.toNat) g.attributes, []) = _
  rw [UInt32.ofNat_toNat]

theorem moduleFlag_line {f : ModuleFlag} {number : Nat} (hnumber : number < 2 ^ 32)
    (hkey : '"' ∉ f.key.toList) : moduleFlag (flagLine f number).toList = .ok (f, []) := by
  have hline : (flagLine f number).toList =
      "!".toList ++ ((Numeral.ofNat number).toList ++ (" = !\x7bi32 ".toList ++
        ((Numeral.ofNat f.behavior.toNat).toList ++ (", !".toList ++ ((quotedText f.key).toList ++
          (", ".toList ++ ((flagValueText f.value).toList ++ ("\x7d".toList ++ [])))))))) := by
    simp [flagLine]
  rw [hline]
  refine (bind_ok (literal_append _ _)).trans ?_
  refine (bind_ok (natural_toDigits hnumber (stops_cons (by decide)))).trans ?_
  refine (bind_ok (literal_append _ _)).trans ?_
  refine (bind_ok (natural_toDigits f.behavior.toNat_lt (stops_cons (by decide)))).trans ?_
  refine (bind_ok (literal_append _ _)).trans ?_
  refine (bind_ok (quoted_append hkey _)).trans ?_
  refine (bind_ok (literal_append _ _)).trans ?_
  refine (bind_ok (flagValue_append _ (stops_cons (by decide)))).trans ?_
  refine (bind_ok (literal_append _ _)).trans ?_
  show Except.ok (ModuleFlag.mk (UInt32.ofNat f.behavior.toNat) f.key f.value, []) = _
  rw [UInt32.ofNat_toNat]

end CircuitQir.Assembly
