import CircuitQir.Proofs.Assembly.Numbers
/-!
# The grammar of lines

The rules for lines take the first alternative that fits, as many items as they can, and a part that
may be missing whenever it is there. The grammar of a line knows nothing of that. Still the two are
the same (`lines_decided`): no alternative takes what a later one is for, and nothing that may
follow a name, a number or a list goes on with it. So no line of the grammar is refused, and none
has two values.
-/

namespace CircuitQir.Assembly

open Ir

namespace Grammar

/-! ## Parts of a line -/

def name : Grammar String := return String.ofList (← many1 isNameCharacter)

/-- Text in double quotes. It has no way to contain one. -/
def quoted : Grammar String := do
  literal "\""
  let cs ← many (· != '"')
  literal "\""
  return String.ofList cs

def valueType : Grammar ValueType :=
  choice [word "i1" .i1, word "i64" .i64, word "double" .double, word "ptr" .ptr]

def resultType : Grammar (Option ValueType) :=
  choice [word "void" none, return some (← valueType)]

def boolean : Grammar Bool := choice [word "true" true, word "false" false]

/-- The number of an attribute group at the end of a declaration or header. -/
def groupReference : Grammar (Option UInt32) := do
  let id ← optional (do literal " #"; natural (2 ^ 32))
  return id.map UInt32.ofNat

def operand : Grammar Operand :=
  choice
    [ (do literal "i1 "; return .bool (← boolean)),
      (do literal "i64 "; return .int (Int64.ofInt (← integer (2 ^ 63)))),
      (do literal "double "; return .double (← float)),
      word "ptr null" .null,
      (do
        literal "ptr inttoptr (i64 "
        let address ← natural (2 ^ 64)
        literal " to ptr)"
        return .pointer (UInt64.ofNat address)) ]

/-- A list in parentheses. -/
def parenthesized {α : Type} (item : Grammar α) : Grammar (List α) := do
  literal "("
  let items ← separated ", " item
  literal ")"
  return items

def groupMember : Grammar Attribute := do
  let key ← quoted
  match ← optional (do literal "="; quoted) with
  | some value => return .keyValue key value
  | none => return .flag key

def flagValue : Grammar FlagValue :=
  choice
    [ (do literal "i32 "; return .i32 (Int32.ofInt (← integer (2 ^ 31)))),
      (do literal "i1 "; return .bool (← boolean)) ]

/-! ## Lines -/

def instruction : Grammar Instruction :=
  choice
    [ word "ret void" .ret,
      (do
        literal "call "
        let _ ← resultType
        literal " @"
        let callee ← name
        return .call callee (← parenthesized operand)) ]

def sourceName : Grammar String := do
  literal "source_filename = "
  quoted

def declaration : Grammar Declaration := do
  literal "declare "
  let result ← resultType
  literal " @"
  let name ← name
  let params ← parenthesized valueType
  return ⟨name, params, result, ← groupReference⟩

/-- The first line of a function, which has no blocks yet. -/
def header : Grammar Function := do
  literal "define "
  let result ← resultType
  literal " @"
  let name ← name
  literal "()"
  let attributes ← groupReference
  literal " \x7b"
  return ⟨name, result, attributes, []⟩

def attributeGroup : Grammar AttributeGroup := do
  literal "attributes #"
  let id ← natural (2 ^ 32)
  literal " = \x7b "
  let attributes ← separated " " groupMember
  literal " \x7d"
  return ⟨UInt32.ofNat id, attributes⟩

/-- A numbered module flag. Its number is of no consequence. -/
def moduleFlag : Grammar ModuleFlag := do
  literal "!"
  let _ ← natural (2 ^ 32)
  literal " = !\x7bi32 "
  let behavior ← natural (2 ^ 32)
  literal ", !"
  let key ← quoted
  literal ", "
  let value ← flagValue
  literal "\x7d"
  return ⟨UInt32.ofNat behavior, key, value⟩

end Grammar

open Rule

/-! ## Parts of a line -/

theorem recognizes_name : Rule.Recognizes name .name (Stops isNameCharacter) :=
  (recognizes_many1 isNameCharacter).map _

theorem recognizes_quoted : Rule.Recognizes quoted .quoted fun _ => True :=
  (recognizes_literal "\"").then fun _ => (recognizes_many (· != '"')).before
    (fun _ => (recognizes_literal "\"").map _) (fun _ => Grammar.starts_literal "\"" _)
    fun _ => stops_cons (by decide)

/-- Words are told apart if none starts with another. -/
theorem recognizes_words {α : Type} (w : String × α) (ws : List (String × α))
    (hapart : (w :: ws).Pairwise fun v w => Apart v.1 w.1) :
    (choice ((w :: ws).map fun w => word w.1 w.2)).Recognizes
      (.choice ((w :: ws).map fun w => .word w.1 w.2)) fun _ => True := by
  let ending (w : String × α) : Alternative α := ⟨w.1, pure w.2, pure w.2⟩
  have hendings : (ending w :: ws.map ending).Pairwise fun a b => Apart a.text b.text := by
    rw [← List.map_cons, List.pairwise_map]
    exact hapart
  have hpure : ∀ b ∈ (w :: ws).map ending, b.rule.Recognizes b.grammar fun _ => True := by
    intro b hb
    obtain ⟨w, -, rfl⟩ := List.mem_map.mp hb
    exact recognizes_pure w.2 _
  have hchoice := recognizes_choice (ending w) (ws.map ending) hendings hpure
  rw [← List.map_cons, List.map_map, List.map_map] at hchoice
  exact hchoice

theorem recognizes_valueType : Rule.Recognizes valueType .valueType fun _ => True :=
  recognizes_words ("i1", ValueType.i1) [("i64", .i64), ("double", .double), ("ptr", .ptr)]
    (by decide)

/-- No type starts like the word for none. -/
theorem recognizes_resultType : Rule.Recognizes resultType .resultType fun _ => True := by
  refine recognizes_either ((recognizes_literal "void").map _) (recognizes_valueType.map some) ?_
  refine Rejects.bind (Rejects.choice fun g hg => ?_) _
  simp only [List.mem_cons, List.not_mem_nil, or_false] at hg
  rcases hg with rfl | rfl | rfl | rfl
  all_goals exact (rejects_literal (by decide) _).bind _

theorem recognizes_boolean : Rule.Recognizes boolean .boolean fun _ => True :=
  recognizes_words ("true", true) [("false", false)] (by decide)

/-- A reference may be missing, so nothing behind it may look like one. -/
theorem recognizes_groupReference : Rule.Recognizes groupReference .groupReference fun rest =>
    Stops Char.isDigit rest ∧ afterPrefix? [' ', '#'] rest = none := by
  have hnumber := (recognizes_literal " #").then fun _ => recognizes_natural (2 ^ 32)
  exact ((hnumber.mono fun rest => And.left).optional fun hrest =>
    ⟨_, bind_error _ (literal_error hrest.2)⟩).map _

theorem recognizes_operand : Rule.Recognizes operand .operand (Stops goesOn) := by
  have hint := (recognizes_integer (2 ^ 63)).mono fun rest (h : Stops goesOn rest) =>
    h.mono fun c => isDigit_of_goesOn
  refine recognizes_choice (α := Operand)
    ⟨"i1 ", return .bool (← boolean), return .bool (← Grammar.boolean)⟩
    [ ⟨"i64 ", return .int (Int64.ofInt (← integer (2 ^ 63))),
        return .int (Int64.ofInt (← Grammar.integer (2 ^ 63)))⟩,
      ⟨"double ", return .double (← float), return .double (← Grammar.float)⟩,
      ⟨"ptr null", return .null, return .null⟩,
      ⟨"ptr inttoptr (i64 ",
        (do
          let address ← natural (2 ^ 64)
          literal " to ptr)"
          return .pointer (UInt64.ofNat address)),
        (do
          let address ← Grammar.natural (2 ^ 64)
          .literal " to ptr)"
          return .pointer (UInt64.ofNat address))⟩ ] (by decide) ?_
  simp only [List.forall_mem_cons]
  refine ⟨recognizes_boolean.map _ |>.mono fun _ _ => trivial, hint.map _, recognizes_float.map _,
    recognizes_pure _ _, ?_, nofun⟩
  exact (recognizes_natural (2 ^ 64)).before (fun _ => ((recognizes_literal " to ptr)").map _).mono
    fun _ _ => trivial) (fun _ => Grammar.starts_literal " to ptr)" _)
    fun _ => stops_cons (by decide)

theorem starts_parenthesized {α β : Type} (g : Grammar α) (f : List α → Grammar β) :
    (Grammar.parenthesized g >>= f).Starts "(" := by
  rintro text y ⟨xs, front, back, rfl, ⟨_, front, middle, rfl, rfl, -⟩, -⟩
  exact ⟨middle ++ back, List.append_assoc _ _ _⟩

/-- A list in parentheses, if no item starts with the closing one. -/
theorem recognizes_parenthesized {α : Type} {item : Rule α} {g : Grammar α}
    (hitem : item.Recognizes g (Stops goesOn))
    (hclose : ∀ line, ∃ at_, item (')' :: line) = .error at_) :
    (parenthesized item).Recognizes (.parenthesized g) fun _ => True := by
  refine (recognizes_literal "(").then fun _ => (hitem.separated ", " (by decide)
    fun line => stops_cons (by decide)).before (fun _ => (recognizes_literal ")").map _)
    (fun _ => Grammar.starts_literal ")" _) fun line => ?_
  exact ⟨stops_cons (by decide), hclose line, _, bind_error _ (literal_error (by rfl))⟩

theorem recognizes_groupMember :
    Rule.Recognizes groupMember .groupMember (Stops (· == '=')) := by
  have hvalue := (recognizes_literal "=").then fun _ =>
    recognizes_quoted.mono fun rest (_ : Stops (· == '=') rest) => trivial
  refine recognizes_quoted.then fun key => (hvalue.optional fun hrest =>
    ⟨_, bind_error _ (literal_stops (d := '=') rfl rfl hrest)⟩).bind (fun value => ?_) ?_
  · cases value with
    | some value => exact recognizes_pure _ _
    | none => exact recognizes_pure _ _
  · rintro (_ | value) text y rest ⟨rfl, -⟩ hrest
    · exact hrest
    · exact hrest

theorem recognizes_flagValue : Rule.Recognizes flagValue .flagValue (Stops goesOn) := by
  have hint := (recognizes_integer (2 ^ 31)).mono fun rest (h : Stops goesOn rest) =>
    h.mono fun c => isDigit_of_goesOn
  refine recognizes_choice (α := FlagValue)
    ⟨"i32 ", return .i32 (Int32.ofInt (← integer (2 ^ 31))),
      return .i32 (Int32.ofInt (← Grammar.integer (2 ^ 31)))⟩
    [⟨"i1 ", return .bool (← boolean), return .bool (← Grammar.boolean)⟩] (by decide) ?_
  simp only [List.forall_mem_cons]
  exact ⟨hint.map _, (recognizes_boolean.map _).mono fun _ _ => trivial, nofun⟩

/-! ## Lines -/

theorem recognizes_instruction :
    Rule.Recognizes instruction .instruction fun _ => True := by
  refine recognizes_choice (α := Instruction) ⟨"ret void", return .ret, return .ret⟩
    [⟨"call ",
      (do
        let _ ← resultType
        literal " @"
        let callee ← name
        return .call callee (← parenthesized operand)),
      (do
        let _ ← Grammar.resultType
        .literal " @"
        let callee ← Grammar.name
        return .call callee (← Grammar.parenthesized .operand))⟩] (by decide) ?_
  simp only [List.forall_mem_cons]
  refine ⟨recognizes_pure _ _, ?_, nofun⟩
  refine recognizes_resultType.then fun _ => (recognizes_literal " @").then fun _ =>
    recognizes_name.before (fun callee => (recognizes_parenthesized recognizes_operand ?_).map _)
      (fun callee => starts_parenthesized _ _) fun line => stops_cons (by decide)
  exact fun line => ⟨_, rfl⟩

theorem recognizes_sourceName : Rule.Recognizes sourceName .sourceName fun _ => True :=
  (recognizes_literal "source_filename = ").then fun _ => recognizes_quoted

theorem recognizes_declaration : Rule.Recognizes declaration .declaration fun rest =>
    Stops Char.isDigit rest ∧ afterPrefix? [' ', '#'] rest = none := by
  have hparams : (parenthesized valueType).Recognizes (.parenthesized .valueType) fun _ => True :=
    recognizes_parenthesized (recognizes_valueType.mono fun _ _ => trivial) fun line => ⟨_, rfl⟩
  exact (recognizes_literal "declare ").then fun _ => recognizes_resultType.then fun _ =>
    (recognizes_literal " @").then fun _ => recognizes_name.before
      (fun _ => hparams.then fun _ => recognizes_groupReference.map _)
      (fun _ => starts_parenthesized _ _) fun line => stops_cons (by decide)

theorem recognizes_header : Rule.Recognizes header .header fun _ => True := by
  refine (recognizes_literal "define ").then fun _ => recognizes_resultType.then fun _ =>
    (recognizes_literal " @").then fun _ => recognizes_name.before (fun _ => ?_)
      (fun _ => Grammar.starts_literal "()" _) fun line => stops_cons (by decide)
  -- What closes the line starts with a blank, like a reference, but goes on otherwise.
  exact (recognizes_literal "()").then fun _ => recognizes_groupReference.before
    (fun _ => (recognizes_literal " \x7b").map _) (fun _ => Grammar.starts_literal " \x7b" _)
    fun line => ⟨stops_cons (by decide), rfl⟩

theorem recognizes_attributeGroup :
    Rule.Recognizes attributeGroup .attributeGroup fun _ => True := by
  refine (recognizes_literal "attributes #").then fun _ => (recognizes_natural (2 ^ 32)).before
    (fun _ => ?_) (fun _ => Grammar.starts_literal " = \x7b " _)
    fun line => stops_cons (by decide)
  refine (recognizes_literal " = \x7b ").then fun _ => (recognizes_groupMember.separated
    " " (by decide) fun line => stops_cons (by decide)).before
    (fun _ => (recognizes_literal " \x7d").map _) (fun _ => Grammar.starts_literal " \x7d" _)
    fun line => ?_
  -- What closes the line starts with a separator, and no member comes behind that.
  exact ⟨stops_cons (by decide), ⟨_, rfl⟩, _, rfl⟩

theorem recognizes_moduleFlag : Rule.Recognizes moduleFlag .moduleFlag fun _ => True := by
  refine (recognizes_literal "!").then fun _ => (recognizes_natural (2 ^ 32)).before
    (fun _ => ?_) (fun _ => Grammar.starts_literal " = !\x7bi32 " _)
    fun line => stops_cons (by decide)
  refine (recognizes_literal " = !\x7bi32 ").then fun _ => (recognizes_natural (2 ^ 32)).before
    (fun _ => ?_) (fun _ => Grammar.starts_literal ", !" _)
    fun line => stops_cons (by decide)
  exact (recognizes_literal ", !").then fun _ => recognizes_quoted.then fun _ =>
    (recognizes_literal ", ").then fun _ => recognizes_flagValue.before
      (fun _ => (recognizes_literal "\x7d").map _) (fun _ => Grammar.starts_literal "\x7d" _)
      fun line => stops_cons (by decide)

/-! ## Whole lines -/

section Whole

variable {α : Type} {r : Rule α} {g : Grammar α} {follows : List Char → Prop}

/-- The rule takes up exactly the lines of the grammar, each with the one value that it has. -/
def Decides (r : Rule α) (g : Grammar α) : Prop :=
  ∀ line, (∀ x, whole r line = .ok x ↔ g line x) ∧ ∀ x y, g line x → g line y → x = y

theorem Rule.Recognizes.decides (hr : r.Recognizes g follows) (hend : follows []) :
    Decides r g := by
  have hwhole {line : List Char} {x : α} (h : g line x) : whole r line = .ok x := by
    have hline := hr.complete h hend
    rw [List.append_nil] at hline
    exact whole_eq_ok_iff.mpr hline
  refine fun line => ⟨fun x => ⟨fun h => ?_, hwhole⟩, fun x y hx hy => ?_⟩
  · obtain ⟨front, hline, hfront⟩ := hr.sound (whole_eq_ok_iff.mp h)
    rwa [hline, List.append_nil]
  · exact Except.ok.inj ((hwhole hx).symm.trans (hwhole hy))

end Whole

/-- The lines that a rule for lines takes up, and their values, are those of its grammar. -/
theorem lines_decided :
    Decides sourceName .sourceName ∧ Decides declaration .declaration ∧ Decides header .header ∧
      Decides instruction .instruction ∧ Decides attributeGroup .attributeGroup ∧
        Decides moduleFlag .moduleFlag :=
  ⟨recognizes_sourceName.decides trivial,
    recognizes_declaration.decides ⟨stops_nil _, rfl⟩,
    recognizes_header.decides trivial,
    recognizes_instruction.decides trivial,
    recognizes_attributeGroup.decides trivial,
    recognizes_moduleFlag.decides trivial⟩

end CircuitQir.Assembly
