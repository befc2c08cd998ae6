import CircuitQir.Proofs.Assembly.Stability
/-!
# What the text of a module is read as

A text names a NaN without saying which one it is, so it shows a module with the one NaN that has
a name in the place of every other (`Module.shown`). If the text can be read at all, that is what
it is read as, as long as the module is spellable (`eq_shown_iff`). A text that can be read does
not mean that the module is spellable: a name may carry the rest of its line and a comment.
-/

namespace CircuitQir

/-- The double that the text of a double is read as. -/
def Double.shown (d : Double) : Double := if d.isNaN then nan else d

theorem Double.legible_shown (d : Double) : d.shown.Legible := by
  unfold shown
  split
  · exact fun _ => rfl
  · rename_i hnan
    exact legible_of_not_isNaN (by simpa using hnan)

theorem Double.literal_shown (d : Double) : d.shown.literal = d.literal := by
  unfold shown
  split
  · rename_i hnan
    rw [literal_of_isNaN hnan, literal_of_isNaN (by decide)]
  · rfl

end CircuitQir

namespace CircuitQir.Ir

def Operand.shown : Operand → Operand
  | .double d => .double d.shown
  | o => o

def Instruction.shown : Instruction → Instruction
  | .call callee args => .call callee (args.map Operand.shown)
  | .ret => .ret

def Block.shown (b : Block) : Block := { b with instructions := b.instructions.map Instruction.shown }

def Function.shown (f : Function) : Function := { f with blocks := f.blocks.map Block.shown }

/-- The module with the NaN that has a name in the place of every NaN. -/
def Module.shown (m : Module) : Module := { m with functions := m.functions.map Function.shown }

theorem Operand.legible_shown (o : Operand) : o.shown.Legible := by
  cases o with
  | double d => exact d.legible_shown
  | bool | int | null | pointer => trivial

/-- An operand that can be told from its text is left alone. -/
theorem Operand.shown_eq_self {o : Operand} (h : o.Legible) : o.shown = o := by
  cases o with
  | double d =>
    rw [shown, Double.shown]
    split
    · rename_i hnan
      rw [h hnan]
    · rfl
  | bool | int | null | pointer => rfl

theorem Instruction.callee?_shown (i : Instruction) : i.shown.callee? = i.callee? := by
  cases i <;> rfl

theorem Instruction.args_shown (i : Instruction) : i.shown.args = i.args.map Operand.shown := by
  cases i <;> rfl

theorem Instruction.shown_eq_self {i : Instruction} (h : ∀ o ∈ i.args, o.Legible) :
    i.shown = i := by
  cases i with
  | ret => rfl
  | call callee args =>
    have hall : ∀ o ∈ args, o.shown = id o := fun o ho => Operand.shown_eq_self (h o ho)
    rw [shown, List.map_congr_left hall, List.map_id]

theorem Block.legible_shown (b : Block) : b.shown.Legible := by
  refine List.forall_mem_map.mpr fun i _ => ?_
  rw [i.args_shown]
  exact List.forall_mem_map.mpr fun o _ => o.legible_shown

theorem Function.spellable_shown (f : Function) : f.shown.Spellable ↔ f.Spellable := by
  have hcallees (b : Block) :
      (∀ i ∈ b.shown.instructions, ∀ callee ∈ i.callee?, Assembly.IsName callee) ↔
        ∀ i ∈ b.instructions, ∀ callee ∈ i.callee?, Assembly.IsName callee := by
    refine List.forall_mem_map.trans (forall₂_congr fun i _ => ?_)
    rw [i.callee?_shown]
  constructor
  · intro h
    exact ⟨h.name, fun b hb => h.labels b.shown (List.mem_map_of_mem hb),
      fun b hb => (hcallees b).mp (List.forall_mem_map.mp h.callees b hb)⟩
  · intro h
    have hlabels : ∀ b ∈ f.blocks.map Block.shown, Assembly.IsName b.label :=
      List.forall_mem_map.mpr h.labels
    exact ⟨h.name, hlabels,
      List.forall_mem_map.mpr fun b hb => (hcallees b).mpr (h.callees b hb)⟩

namespace Module

variable {m : Module}

theorem spellable_shown : m.shown.Spellable ↔ m.Spellable := by
  have hfunctions : (∀ f ∈ m.shown.functions, f.Spellable) ↔ ∀ f ∈ m.functions, f.Spellable :=
    List.forall_mem_map.trans (forall₂_congr fun f _ => f.spellable_shown)
  constructor
  · intro h
    exact ⟨h.sourceName, h.declarations, hfunctions.mp h.functions, h.attributes, h.flags⟩
  · intro h
    exact ⟨h.sourceName, h.declarations, hfunctions.mpr h.functions, h.attributes, h.flags⟩

/-- A module without NaNs is shown as it is. -/
theorem shown_eq_self (h : ∀ i ∈ m.instructions, ∀ o ∈ i.args, o.Legible) : m.shown = m := by
  have hblock : ∀ f ∈ m.functions, ∀ b ∈ f.blocks, b.shown = b := by
    intro f hf b hb
    have hall : ∀ i ∈ b.instructions, i.shown = id i := fun i hi =>
      Instruction.shown_eq_self (h i (List.mem_flatMap.mpr ⟨f, hf, List.mem_flatMap.mpr ⟨b, hb, hi⟩⟩))
    rw [Block.shown, List.map_congr_left hall, List.map_id]
  have hfunction : ∀ f ∈ m.functions, f.shown = id f := by
    intro f hf
    have hall : ∀ b ∈ f.blocks, b.shown = id b := hblock f hf
    rw [Function.shown, List.map_congr_left hall, List.map_id]
    rfl
  rw [shown, List.map_congr_left hfunction, List.map_id]

end Module

end CircuitQir.Ir

namespace CircuitQir.Assembly

open Ir

/-! ## The text -/

theorem operandText_shown (o : Operand) : operandText o.shown = operandText o := by
  cases o with
  | double d => exact congrArg ("double " ++ ·) d.literal_shown
  | bool | int | null | pointer => exact congrArg operandText rfl

variable {m : Module}

theorem instructionLine_shown (i : Instruction) :
    instructionLine m.shown i.shown = instructionLine m i := by
  cases i with
  | ret => rfl
  | call callee args =>
    have hargs : (args.map Operand.shown).map operandText = args.map operandText := by
      rw [List.map_map]
      exact List.map_congr_left fun o _ => operandText_shown o
    rw [Instruction.shown, instructionLine, instructionLine, hargs]
    rfl

theorem blockLines_shown (b : Block) : blockLines m.shown b.shown = blockLines m b := by
  have hlines : (b.instructions.map Instruction.shown).map (instructionLine m.shown) =
      b.instructions.map (instructionLine m) := by
    rw [List.map_map]
    exact List.map_congr_left fun i _ => instructionLine_shown i
  rw [blockLines, blockLines, ← hlines]
  rfl

theorem bodyLines_shown : ∀ bs : List Block,
    bodyLines m.shown (bs.map Block.shown) = bodyLines m bs
  | [] => rfl
  | [b] => blockLines_shown b
  | b :: c :: bs => by
    have hrest : bodyLines m.shown (c.shown :: bs.map Block.shown) = bodyLines m (c :: bs) :=
      bodyLines_shown (c :: bs)
    show blockLines m.shown b.shown ++ "" :: bodyLines m.shown (c.shown :: bs.map Block.shown) =
      blockLines m b ++ "" :: bodyLines m (c :: bs)
    rw [blockLines_shown, hrest]

/-- A module has the text of the module that it is shown as. -/
theorem print_shown (m : Module) : print m.shown = print m := by
  have hfunctions : m.shown.functions.flatMap (fun f => "" :: functionLines m.shown f) =
      m.functions.flatMap fun f => "" :: functionLines m f := by
    rw [Module.shown, List.flatMap_map]
    refine List.flatMap_congr fun f _ => ?_
    rw [functionLines, functionLines, Function.shown, ← Module.shown, bodyLines_shown]
    rfl
  rw [print, print, moduleLines, moduleLines, hfunctions]
  rfl

/-! ## Numbering flags -/

theorem moduleFlag_error {f : ModuleFlag} {number : Nat} (h : 2 ^ 32 ≤ number) :
    ∃ at_, moduleFlag (flagLine f number).toList = .error at_ := by
  obtain ⟨tail, hline⟩ : ∃ tail, (flagLine f number).toList =
      "!".toList ++ ((Numeral.ofNat number).toList ++ (" = ".toList ++ tail)) := by
    rw [flagLine]
    exact ⟨_, by simp; rfl⟩
  have hstops : Stops Char.isDigit (" = ".toList ++ tail) := stops_cons (by decide)
  obtain ⟨at_, hat⟩ := Rule.natural_error h hstops
  refine ⟨at_, ?_⟩
  rw [hline]
  exact (Rule.bind_ok (Rule.literal_append _ _)).trans (Rule.bind_error _ hat)

/-- A line that is not taken in is the end of the reading, whatever follows. -/
theorem parse_error_of_line {d : Draft} {front rest : List String} {l : String}
    (hfront : Draft.empty.Leads front d) (hl : ∃ e, d.line l.toList = .error e)
    (hends : ∀ l' ∈ l :: rest, Ends l'.toList) :
    ∃ e, parse (unlines (front ++ l :: rest)) = .error e := by
  obtain ⟨issue, hissue⟩ := hl
  have hlines : Draft.empty.lines 1 ((front ++ l :: rest).map String.toList) =
      .error ⟨1 + front.length, issue⟩ := by
    rw [List.map_append, hfront.lines, List.map_cons, Draft.lines, hissue]
  refine ⟨⟨1 + front.length, issue⟩, ?_⟩
  unfold parse
  rw [linesOf_unlines (List.forall_mem_append.mpr ⟨hfront.ends, hends⟩)]
  exact bind_of_error hlines _

/-- The text of a spellable module with too many flags to number is not read. -/
theorem length_flags_le_of_parse {t : Module} (h : m.Spellable)
    (hlegible : ∀ f ∈ m.functions, ∀ b ∈ f.blocks, b.Legible) (hparse : parse (print m) = .ok t) :
    m.flags.length ≤ 2 ^ 32 := by
  by_contra hmany
  rw [Nat.not_le] at hmany
  obtain ⟨front, f, rest, hflags, hlength⟩ :
      ∃ front f rest, m.flags = front ++ f :: rest ∧ front.length = 2 ^ 32 :=
    ⟨m.flags.take (2 ^ 32), m.flags[2 ^ 32], m.flags.drop (2 ^ 32 + 1),
      by rw [← List.drop_eq_getElem_cons hmany, List.take_append_drop],
      by rw [List.length_take, Nat.min_eq_left (Nat.le_of_lt hmany)]⟩
  have hkeys : ∀ f ∈ m.flags, Quotable f.key := h.flags
  rw [hflags, List.forall_mem_append, List.forall_mem_cons] at hkeys
  obtain ⟨hfront, hf, hrest⟩ := hkeys
  -- All flags that can be numbered are taken in, and the next one is not.
  have hlist : Draft.Leads ⟨{ m with flags := [] }, none⟩
      ["", flagListLine m.flags.length, ""] ⟨{ m with flags := [] }, none⟩ :=
    .cons (Draft.leads_empty _) (.cons (Draft.leads_flagList _) (Draft.leads_empty _))
  have hnumbered := Draft.leads_flags (m := m) hfront 0 (by omega) []
  have hleads := ((Draft.leads_frontLines h hlegible).trans hlist).trans hnumbered
  have hstuck : ∃ e, Draft.line ⟨{ m with flags := [] ++ front }, none⟩
      (flagLine f (2 ^ 32)).toList = .error e := by
    obtain ⟨at_, hat⟩ := moduleFlag_error (f := f) (Nat.le_refl (2 ^ 32))
    have hwhole : ∃ e, whole moduleFlag (flagLine f (2 ^ 32)).toList = .error e := by
      unfold whole
      rw [hat]
      exact ⟨_, rfl⟩
    obtain ⟨e, he⟩ := hwhole
    exact ⟨e, (Draft.line_flag hf.2 _).trans (bind_of_error he _)⟩
  have hlines : moduleLines m = (Draft.frontLines m ++ ["", flagListLine m.flags.length, ""] ++
      front.mapIdx fun i f => flagLine f (0 + i)) ++
        flagLine f (2 ^ 32) :: rest.mapIdx fun i f => flagLine f (i + 1 + 2 ^ 32) := by
    have hflagLines : (m.flags.mapIdx fun i f => flagLine f i) =
        (front.mapIdx fun i f => flagLine f (0 + i)) ++
          flagLine f (2 ^ 32) :: rest.mapIdx fun i f => flagLine f (i + 1 + 2 ^ 32) := by
      rw [hflags, List.mapIdx_append, List.mapIdx_cons, hlength]
      simp only [Nat.zero_add]
    have hne : m.flags.isEmpty ≠ true := by
      rw [hflags]
      simp
    show Draft.frontLines m ++ (if m.flags.isEmpty then [] else "" :: flagListLine m.flags.length ::
      "" :: m.flags.mapIdx fun i f => flagLine f i) = _
    rw [if_neg hne, hflagLines, List.append_assoc, List.append_assoc]
    rfl
  have hends : ∀ l ∈ flagLine f (2 ^ 32) :: rest.mapIdx fun i f => flagLine f (i + 1 + 2 ^ 32),
      Ends l.toList := by
    refine List.forall_mem_cons.mpr ⟨(solid_flagLine hf.2 _).ends, fun l hl => ?_⟩
    obtain ⟨i, hi, rfl⟩ := List.mem_mapIdx.mp hl
    exact (solid_flagLine (hrest _ (List.getElem_mem hi)).2 _).ends
  obtain ⟨e, he⟩ := parse_error_of_line hleads hstuck hends
  rw [← hlines, ← print, hparse] at he
  cases he

/-! ## Reading it -/

/-- If the text of a module is read, it is read as what the module is shown as exactly if the
module is spellable. -/
theorem eq_shown_iff {t : Module} (h : parse (print m) = .ok t) : t = m.shown ↔ m.Spellable := by
  constructor
  · rintro rfl
    exact Module.spellable_shown.mp (spellable_of_parse h)
  · intro hspellable
    have hshown := Module.spellable_shown.mpr hspellable
    have hlegible : ∀ f ∈ m.shown.functions, ∀ b ∈ f.blocks, b.Legible :=
      List.forall_mem_map.mpr fun f _ => List.forall_mem_map.mpr fun b _ => b.legible_shown
    rw [← print_shown] at h
    have hread := parse_print_of_legible (length_flags_le_of_parse hshown hlegible h) hlegible hshown
    exact Except.ok.inj (h.symm.trans hread)

end CircuitQir.Assembly
