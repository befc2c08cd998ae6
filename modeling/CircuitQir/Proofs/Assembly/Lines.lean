import CircuitQir.Assembly.Parser
import CircuitQir.Assembly.Printer
import CircuitQir.Proofs.Assembly.Grammar
/-!
# Printed lines

The lines of a text come back from it as they were when none of them contains a line feed, or
ends in a carriage return that could be taken for a part of the line end. Printed lines are of
this kind: only names and texts in quotes have a say in it, and every line begins and ends with a
character of its own that is not blank, so that trimming takes off the indentation and nothing
else.
-/

namespace CircuitQir

/-! ## Cutting a text into lines -/

theorem linesFrom_append {line : List Char} (h : '\n' ∉ line) (begun rest : List Char) :
    linesFrom begun (line ++ '\n' :: rest) =
      withoutReturn (begun.reverse ++ line) :: linesFrom [] rest := by
  induction line generalizing begun with
  | nil =>
    rw [List.append_nil]
    rfl
  | cons c line ih =>
    have hc : c ≠ '\n' := by
      rintro rfl
      exact h List.mem_cons_self
    have hline : '\n' ∉ line := fun hmem => h (List.mem_cons_of_mem c hmem)
    have hstep : linesFrom begun (c :: (line ++ '\n' :: rest)) =
        linesFrom (c :: begun) (line ++ '\n' :: rest) := by
      rw [linesFrom]
      exact fun heq => hc heq
    rw [List.cons_append, hstep, ih hline, List.reverse_cons, List.append_assoc]
    rfl

theorem withoutReturn_eq {line : List Char} (h : line.getLast? ≠ some '\r') :
    withoutReturn line = line := by
  unfold withoutReturn
  split
  · rename_i heq
    exact absurd heq h
  · rfl

/-- A line that does not run into the next one, and keeps its last character. -/
def Ends (line : List Char) : Prop := '\n' ∉ line ∧ line.getLast? ≠ some '\r'

theorem Ends.cons {c : Char} {line : List Char} (h : Ends line) (hc : c ≠ '\n')
    (hline : line ≠ []) : Ends (c :: line) := by
  refine ⟨fun hmem => (List.mem_cons.mp hmem).elim (fun heq => hc heq.symm) h.1, ?_⟩
  rw [List.getLast?_cons_of_ne_nil hline]
  exact h.2

theorem toList_unlines : ∀ lines : List String,
    (Assembly.unlines lines).toList = lines.flatMap fun l => l.toList ++ ['\n']
  | [] => rfl
  | l :: lines => by
    show (l ++ "\n" ++ Assembly.unlines lines).toList = _
    rw [String.toList_append, String.toList_append, toList_unlines lines, List.flatMap_cons]
    rfl

theorem linesOf_unlines : ∀ {lines : List String}, (∀ l ∈ lines, Ends l.toList) →
    linesOf (Assembly.unlines lines).toList = lines.map String.toList
  | [], _ => rfl
  | l :: lines, h => by
    have hl := h l List.mem_cons_self
    have htext : (Assembly.unlines (l :: lines)).toList =
        l.toList ++ '\n' :: (Assembly.unlines lines).toList := by
      simp [toList_unlines]
    have hrest := linesOf_unlines fun l' hl' => h l' (List.mem_cons_of_mem l hl')
    rw [linesOf, htext, linesFrom_append hl.1, List.reverse_nil, List.nil_append,
      withoutReturn_eq hl.2, List.map_cons]
    exact congrArg _ hrest

/-! ## Trimming -/

/-- A line that begins and ends with characters that are not blank. -/
structure Solid (line : List Char) : Prop where
  first : ∃ c ∈ line.head?, isBlank c = false
  last : ∃ c ∈ line.getLast?, isBlank c = false
  feed : '\n' ∉ line

namespace Solid

variable {line : List Char}

theorem ne_nil (h : Solid line) : line ≠ [] := by
  obtain ⟨c, hc, -⟩ := h.first
  rintro rfl
  cases hc

theorem ends (h : Solid line) : Ends line := by
  refine ⟨h.feed, fun hreturn => ?_⟩
  obtain ⟨c, hc, hblank⟩ := h.last
  obtain rfl : '\r' = c := Option.some.inj (hreturn.symm.trans hc)
  exact absurd hblank (by decide)

theorem trimmed (h : Solid line) : trimmed line = line := by
  obtain ⟨c, hc, hfirst⟩ := h.first
  obtain ⟨d, hd, hlast⟩ := h.last
  have hdrop : ∀ {l : List Char} {c : Char}, c ∈ l.head? → isBlank c = false →
      l.dropWhile isBlank = l := by
    intro l c hc hblank
    cases l with
    | nil => rfl
    | cons b l =>
      obtain rfl : b = c := Option.some.inj hc
      rw [List.dropWhile_cons_of_neg (by simp [hblank])]
  rw [CircuitQir.trimmed, hdrop hc hfirst, hdrop (by rwa [List.head?_reverse]) hlast,
    List.reverse_reverse]

end Solid

theorem trimmed_cons {c : Char} (h : isBlank c = true) (line : List Char) :
    trimmed (c :: line) = trimmed line := by
  rw [trimmed, List.dropWhile_cons_of_pos h]
  rfl

/-! ## Line feeds

The parts of a line contain none, except for names and texts in quotes that do. -/

namespace Assembly

open Ir

theorem notMem_of_all {p : Char → Bool} {c : Char} {cs : List Char}
    (hp : p c = false) (h : ∀ d ∈ cs, p d = true) : c ∉ cs := by
  intro hmem
  rw [h c hmem] at hp
  cases hp

@[simp]
theorem feed_ofNat (n : Nat) : '\n' ∉ (Numeral.ofNat n).toList := by
  rw [Numeral.ofNat, String.toList_ofList]
  exact notMem_of_all (p := Char.isDigit) rfl isDigit_of_mem_toDigits

@[simp]
theorem feed_ofInt (v : Int) : '\n' ∉ (Numeral.ofInt v).toList := by
  have hsign : '\n' ∉ (if v < 0 then "-" else "").toList := by split <;> decide
  simp [Numeral.ofInt, hsign]

@[simp]
theorem feed_literal (d : Double) : '\n' ∉ d.literal.toList := by
  have hsign : '\n' ∉ (if d.isNegative then ['-'] else []) := by split <;> decide
  cases hfinite : d.isFinite with
  | true =>
    obtain ⟨whole, fraction, h⟩ := Double.exists_isWritten hfinite
    have hfirst : '\n' ∉ whole := notMem_of_all rfl h.spelled.whole_digits
    have hsecond : '\n' ∉ fraction := notMem_of_all rfl h.spelled.fraction_digits
    rw [h.text]
    simp [hsign, hfirst, hsecond]
  | false =>
    cases hnan : d.isNaN with
    | true =>
      rw [Double.literal_of_isNaN hnan]
      decide
    | false =>
      rw [Double.toList_literal_infinite hfinite hnan]
      simp [hsign]

@[simp]
theorem feed_typeText (t : ValueType) : '\n' ∉ (typeText t).toList := by
  cases t <;> decide

@[simp]
theorem feed_resultText (t : Option ValueType) : '\n' ∉ (resultText t).toList := by
  cases t with
  | none => decide
  | some t => exact feed_typeText t

@[simp]
theorem feed_boolText (b : Bool) : '\n' ∉ (boolText b).toList := by
  cases b <;> decide

@[simp]
theorem feed_operandText (o : Operand) : '\n' ∉ (operandText o).toList := by
  cases o with
  | bool b =>
    show '\n' ∉ ("i1 " ++ boolText b).toList
    simp
  | int v =>
    show '\n' ∉ ("i64 " ++ Numeral.ofInt v.toInt).toList
    simp
  | double d =>
    show '\n' ∉ ("double " ++ d.literal).toList
    simp
  | null => decide
  | pointer p =>
    show '\n' ∉ ("ptr inttoptr (i64 " ++ Numeral.ofNat p.toNat ++ " to ptr)").toList
    simp

@[simp]
theorem feed_groupSuffix (id : Option UInt32) : '\n' ∉ (groupSuffix id).toList := by
  cases id <;> simp [groupSuffix]

@[simp]
theorem feed_flagValueText (v : FlagValue) : '\n' ∉ (flagValueText v).toList := by
  cases v <;> simp [flagValueText]

theorem feed_joined {α : Type} (separator : String) {text : α → String} {xs : List α}
    (hseparator : '\n' ∉ separator.toList) (h : ∀ x ∈ xs, '\n' ∉ (text x).toList) :
    '\n' ∉ (joined separator (xs.map text)).toList := by
  cases xs with
  | nil => exact List.not_mem_nil
  | cons x xs =>
    simp only [Rule.joined_cons, Rule.following, List.mem_append, List.mem_flatMap, not_or,
      not_exists, not_and]
    refine ⟨h x (by simp), fun y hy => ⟨hseparator, h y (by simp [hy])⟩⟩

theorem IsName.feed {s : String} (h : IsName s) : '\n' ∉ s.toList := notMem_of_all rfl h.2

theorem feed_attributeText {a : Attribute} (h : ∀ s ∈ a.strings, '\n' ∉ s.toList) :
    '\n' ∉ (attributeText a).toList := by
  cases a with
  | flag key =>
    have hkey := h key (by simp [Attribute.strings])
    simp [attributeText, quotedText, hkey]
  | keyValue key value =>
    have hkey := h key (by simp [Attribute.strings])
    have hvalue := h value (by simp [Attribute.strings])
    simp [attributeText, quotedText, hkey, hvalue]

/-! ## Whole lines -/

theorem ascii_of_isNameCharacter {c : Char} (h : isNameCharacter c = true) :
    33 ≤ c.val.toNat ∧ c.val.toNat < 128 := by
  have hrange {a b : Char} (ha : 33 ≤ a.val.toNat) (hb : b.val.toNat < 128) (hl : a.val ≤ c.val)
      (hu : c.val ≤ b.val) : 33 ≤ c.val.toNat ∧ c.val.toNat < 128 :=
    ⟨Nat.le_trans ha hl, Nat.lt_of_le_of_lt hu hb⟩
  change (((decide ('A'.val ≤ c.val ∧ c.val ≤ 'Z'.val) ||
    decide ('a'.val ≤ c.val) && decide (c.val ≤ 'z'.val)) ||
    decide ('0'.val ≤ c.val) && decide (c.val ≤ '9'.val)) ||
    c == '_' || c == '.' || c == '$') = true at h
  simp only [Bool.or_eq_true, Bool.and_eq_true, decide_eq_true_eq, beq_iff_eq] at h
  rcases h with ((((⟨hl, hu⟩ | ⟨hl, hu⟩) | ⟨hl, hu⟩) | rfl) | rfl) | rfl
  · exact hrange (by decide) (by decide) hl hu
  · exact hrange (by decide) (by decide) hl hu
  · exact hrange (by decide) (by decide) hl hu
  all_goals decide

theorem isBlank_of_isNameCharacter {c : Char} (h : isNameCharacter c = true) :
    isBlank c = false := by
  obtain ⟨hlow, hhigh⟩ : 33 ≤ c.toNat ∧ c.toNat < 128 := ascii_of_isNameCharacter h
  simp [isBlank]
  omega

theorem getLast?_append {s t : String} {c : Char} (h : c ∈ t.toList.getLast?) :
    c ∈ (s ++ t).toList.getLast? := by
  obtain h : t.toList.getLast? = some c := h
  rw [String.toList_append, List.getLast?_append, h]
  rfl

/-- The ends of a line are seen at once. -/
theorem solid_of_ends {c d : Char} {line : List Char} (hfirst : c ∈ line.head?)
    (hc : isBlank c = false) (hlast : d ∈ line.getLast?) (hd : isBlank d = false)
    (hfeed : '\n' ∉ line) : Solid line :=
  ⟨⟨c, hfirst, hc⟩, ⟨d, hlast, hd⟩, hfeed⟩

theorem solid_comment {s : String} (h : '\n' ∉ s.toList) :
    Solid ("; ModuleID = '" ++ s ++ "'").toList :=
  solid_of_ends (c := ';') (by simp) rfl (getLast?_append rfl) rfl (by simp [h])

theorem solid_sourceName {s : String} (h : '\n' ∉ s.toList) :
    Solid ("source_filename = " ++ quotedText s).toList :=
  solid_of_ends (c := 's') (by simp) rfl (getLast?_append (getLast?_append rfl)) rfl
    (by simp [quotedText, h])

theorem solid_label {s : String} (h : IsName s) : Solid (s ++ ":").toList where
  first := by
    have hne : s.toList ≠ [] := by simpa using h.1
    refine ⟨s.toList.head hne, ?_, isBlank_of_isNameCharacter (h.2 _ (List.head_mem hne))⟩
    rw [String.toList_append, List.head?_append, List.head?_eq_some_head hne]
    rfl
  last := ⟨':', getLast?_append rfl, by decide⟩
  feed := by simp [h.feed]

theorem solid_instructionText (m : Module) {i : Instruction}
    (h : ∀ callee ∈ i.callee?, IsName callee) : Solid (instructionText m i).toList := by
  cases i with
  | ret =>
    rw [instructionText_ret]
    exact solid_of_ends rfl rfl rfl rfl (by decide)
  | call callee args =>
    have hargs := feed_joined ", " (by decide)
      fun o (_ : o ∈ args) => feed_operandText o
    refine solid_of_ends (c := 'c') ?_ rfl (getLast?_append (getLast?_append rfl)) rfl ?_
    · simp [instructionText]
    · simp [instructionText, (h callee rfl).feed, hargs]

theorem solid_declarationLine {d : Declaration} (h : IsName d.name) :
    Solid (declarationLine d).toList where
  first := ⟨'d', by simp [declarationLine], by decide⟩
  last := by
    unfold declarationLine
    cases d.attributes with
    | none => exact ⟨')', by simp [groupSuffix, List.getLast?_cons], by decide⟩
    | some id =>
      have hne : Nat.toDigits 10 id.toNat ≠ [] := Nat.toDigits_ne_nil
      have hdigit := isDigit_of_mem_toDigits _ (List.getLast_mem hne)
      refine ⟨(Nat.toDigits 10 id.toNat).getLast hne, getLast?_append (getLast?_append ?_),
        isBlank_of_isNameCharacter ?_⟩
      · rw [Numeral.ofNat, String.toList_ofList, List.getLast?_eq_some_getLast hne]
        rfl
      · simp [isNameCharacter, Char.isAlphanum, hdigit]
  feed := by
    have hparams := feed_joined ", " (by decide)
      fun t (_ : t ∈ d.params) => feed_typeText t
    simp [declarationLine, h.feed, hparams]

theorem solid_headerLine {f : Function} (h : IsName f.name) : Solid (headerLine f).toList := by
  refine solid_of_ends (c := 'd') ?_ rfl (getLast?_append rfl) rfl ?_
  · simp [headerLine]
  · simp [headerLine, h.feed]

theorem solid_groupLine {g : AttributeGroup}
    (h : ∀ a ∈ g.attributes, ∀ s ∈ a.strings, '\n' ∉ s.toList) : Solid (groupLine g).toList := by
  have hattributes := feed_joined " " (by decide) fun a ha => feed_attributeText (h a ha)
  refine solid_of_ends (c := 'a') ?_ rfl (getLast?_append rfl) rfl ?_
  · simp [groupLine]
  · simp [groupLine, hattributes]

theorem solid_flagListLine (count : Nat) : Solid (flagListLine count).toList := by
  have hnumbers : '\n' ∉ (joined ", " ((List.range count).map
      fun i => "!" ++ Numeral.ofNat i)).toList :=
    feed_joined ", " (by decide) fun i _ => by simp
  unfold flagListLine
  generalize joined ", " ((List.range count).map fun i => "!" ++ Numeral.ofNat i) = numbers
    at hnumbers
  refine solid_of_ends (c := '!') ?_ rfl (getLast?_append rfl) rfl ?_
  · simp
  · simp [hnumbers]

theorem solid_flagLine {f : ModuleFlag} (h : '\n' ∉ f.key.toList) (number : Nat) :
    Solid (flagLine f number).toList := by
  refine solid_of_ends (c := '!') ?_ rfl (getLast?_append rfl) rfl ?_
  · rw [flagLine]
    simp
  · rw [flagLine]
    simp [quotedText, h]

end Assembly

end CircuitQir
