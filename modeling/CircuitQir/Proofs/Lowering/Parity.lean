import CircuitQir.Proofs.Assembly.Shown
import CircuitQir.Proofs.Bitcode.RoundTrip
import CircuitQir.Proofs.Lowering.Finished
/-!
# What comparing renderings finds

Renderings need not be those of the module that they are checked against. Each is read, and what
it is read as is compared by its tally: the number of declarations, the number of instructions and
the list of attribute groups. So a check of the text of one module and the bitcode of another
against a third is a comparison of tallies (`checkRenderings_print_encode`), as long as both
renderings are read as what they were made from. Nothing but the tally matters, and of all
differences the first is named: those of the text ahead of those of the bitcode, and in each of
them the declarations ahead of the instructions ahead of the attributes.
-/

namespace CircuitQir

namespace Ir

/-- What is compared of a module. -/
@[ext] structure Tally where
  declarations : Nat
  instructions : Nat
  attributeGroups : List AttributeGroup
deriving DecidableEq

/-- How many instructions the blocks of a function hold. -/
def Function.instructionCount (f : Function) : Nat := (f.blocks.map (·.instructions.length)).sum

/-- The tally of a module, with the instructions counted function by function. -/
def Module.tally (m : Module) : Tally where
  declarations := m.declarations.length
  instructions := (m.functions.map Function.instructionCount).sum
  attributeGroups := m.attributeGroups

theorem Module.length_instructions (m : Module) :
    m.instructions.length = m.tally.instructions := by
  rw [instructions, List.length_flatMap]
  congr 1
  exact List.map_congr_left fun f _ => List.length_flatMap

theorem Function.instructionCount_shown (f : Function) :
    f.shown.instructionCount = f.instructionCount := by
  have hblock : (fun b : Block => b.instructions.length) ∘ Block.shown =
      fun b => b.instructions.length := by
    funext b
    exact List.length_map _
  rw [instructionCount, instructionCount, shown, List.map_map, hblock]

/-- Which NaNs the operands are makes no difference. -/
theorem Module.tally_shown (m : Module) : m.shown.tally = m.tally := by
  have hcount : Function.instructionCount ∘ Function.shown = Function.instructionCount :=
    funext Function.instructionCount_shown
  rw [tally, tally, shown, List.map_map, hcount]

/-- The first difference between the tally of what a rendering is read as and the expected one. -/
inductive Tally.Differs (r : Rendering) (found expected : Tally) : Disagreement → Prop
  | declarations (h : found.declarations ≠ expected.declarations) :
    Differs r found expected (.declarations r found.declarations expected.declarations)
  | instructions (hdeclarations : found.declarations = expected.declarations)
    (h : found.instructions ≠ expected.instructions) :
    Differs r found expected (.instructions r found.instructions expected.instructions)
  | attributes (hdeclarations : found.declarations = expected.declarations)
    (hinstructions : found.instructions = expected.instructions)
    (h : found.attributeGroups ≠ expected.attributeGroups) :
    Differs r found expected (.attributes r)

end Ir

open Ir

variable {m t b found expected : Module} {r : Rendering} {x : Disagreement}

/-! ## One rendering -/

theorem checkRendering_eq_ok_iff :
    checkRendering r found expected = .ok () ↔ found.tally = expected.tally := by
  rw [checkRendering, ensure_bind_eq_ok_iff, ensure_bind_eq_ok_iff, ensure_eq_ok_iff,
    Tally.ext_iff]
  simp only [decide_eq_true_eq, Module.length_instructions]
  exact Iff.rfl

theorem checkRendering_eq_error_iff :
    checkRendering r found expected = .error x ↔
      Tally.Differs r found.tally expected.tally x := by
  rw [checkRendering, ensure_bind_eq_error_iff, ensure_bind_eq_error_iff, ensure_eq_error_iff]
  simp only [decide_eq_true_eq, decide_eq_false_iff_not, Module.length_instructions]
  constructor
  · rintro (⟨h, rfl⟩ | ⟨hdeclarations, ⟨h, rfl⟩ | ⟨hinstructions, h, rfl⟩⟩)
    · exact .declarations h
    · exact .instructions hdeclarations h
    · exact .attributes hdeclarations hinstructions h
  · intro h
    cases h with
    | declarations h => exact .inl ⟨h, rfl⟩
    | instructions hdeclarations h => exact .inr ⟨hdeclarations, .inl ⟨h, rfl⟩⟩
    | attributes hdeclarations hinstructions h =>
      exact .inr ⟨hdeclarations, .inr ⟨hinstructions, h, rfl⟩⟩

/-! ## Both renderings -/

section

variable {text : String} {bitcode : List UInt8}

/-- Both renderings are read before either is compared. -/
theorem checkRenderings_eq (ht : Assembly.parse text = .ok t) (hb : Bitcode.decode bitcode = .ok b) :
    checkRenderings m text bitcode =
      (checkRendering .text t m >>= fun _ => checkRendering .bitcode b m) := by
  rw [checkRenderings, ht, hb]

/-- What passes can be read, and has the tally of the module. -/
theorem exists_of_checkRenderings (h : checkRenderings m text bitcode = .ok ()) :
    ∃ t b, Assembly.parse text = .ok t ∧ Bitcode.decode bitcode = .ok b ∧
      t.tally = m.tally ∧ b.tally = m.tally := by
  cases ht : Assembly.parse text with
  | error e =>
    rw [checkRenderings, ht] at h
    cases h
  | ok t =>
    cases hb : Bitcode.decode bitcode with
    | error e =>
      rw [checkRenderings, ht, hb] at h
      cases h
    | ok b =>
      rw [checkRenderings_eq ht hb] at h
      obtain ⟨⟨⟩, htext, hbitcode⟩ := bind_eq_ok h
      exact ⟨t, b, rfl, rfl, checkRendering_eq_ok_iff.mp htext,
        checkRendering_eq_ok_iff.mp hbitcode⟩

theorem checkRenderings_eq_ok_iff (ht : Assembly.parse text = .ok t)
    (hb : Bitcode.decode bitcode = .ok b) :
    checkRenderings m text bitcode = .ok () ↔ t.tally = m.tally ∧ b.tally = m.tally := by
  constructor
  · intro h
    obtain ⟨t', b', ht', hb', htallies⟩ := exists_of_checkRenderings h
    obtain rfl := Except.ok.inj (ht.symm.trans ht')
    obtain rfl := Except.ok.inj (hb.symm.trans hb')
    exact htallies
  · rintro ⟨htext, hbitcode⟩
    rw [checkRenderings_eq ht hb, bind_of_ok (checkRendering_eq_ok_iff.mpr htext)]
    exact checkRendering_eq_ok_iff.mpr hbitcode

theorem checkRenderings_eq_error_iff (ht : Assembly.parse text = .ok t)
    (hb : Bitcode.decode bitcode = .ok b) :
    checkRenderings m text bitcode = .error x ↔ Tally.Differs .text t.tally m.tally x ∨
      t.tally = m.tally ∧ Tally.Differs .bitcode b.tally m.tally x := by
  rw [checkRenderings_eq ht hb, ← checkRendering_eq_error_iff, ← checkRendering_eq_error_iff,
    ← checkRendering_eq_ok_iff (r := .text)]
  constructor
  · intro h
    rcases bind_eq_error h with htext | ⟨⟨⟩, htext, hbitcode⟩
    · exact .inl htext
    · exact .inr ⟨htext, hbitcode⟩
  · rintro (htext | ⟨htext, hbitcode⟩)
    · exact bind_of_error htext _
    · rw [bind_of_ok htext, hbitcode]

end

/-- Checked against any module, the text of a module and the bitcode of another pass exactly if
both have the tally of the first. Otherwise the first difference is reported, and those of the text
come first. Of the two modules it is asked that their own renderings give them back, the text up to
which NaN an operand is. -/
theorem checkRenderings_print_encode {m a b : Module}
    (ha : ∃ t, Assembly.parse (Assembly.print a) = .ok t ∧ t.shown = a.shown)
    (hb : Bitcode.decode (Bitcode.encode b) = .ok b) :
    (checkRenderings m (Assembly.print a) (Bitcode.encode b) = .ok () ↔
      a.tally = m.tally ∧ b.tally = m.tally) ∧
    ∀ x, checkRenderings m (Assembly.print a) (Bitcode.encode b) = .error x ↔
      Tally.Differs .text a.tally m.tally x ∨
        a.tally = m.tally ∧ Tally.Differs .bitcode b.tally m.tally x := by
  obtain ⟨t, ht, hshown⟩ := ha
  have htally : t.tally = a.tally := by
    rw [← t.tally_shown, hshown, a.tally_shown]
  rw [← htally]
  exact ⟨checkRenderings_eq_ok_iff ht hb, fun _ => checkRenderings_eq_error_iff ht hb⟩

/-- A program of one call, with the given names and attribute groups. -/
def oneCall (sourceName callee : String) (arg : Double) (groups : List AttributeGroup) : Module where
  sourceName := sourceName
  declarations := [⟨callee, [.double], none, none⟩]
  functions := [⟨"main", none, none, [⟨"entry", [.call callee [.double arg], .ret]⟩]⟩]
  attributeGroups := groups
  flags := []

/-- Of the three programs the second has another callee and a NaN that its text does not tell from
others, and passes for the first all the same. The third has an attribute group more, and does
not. -/
theorem checkRenderings_of_oneCalls :
    let m := oneCall "first" "f" ⟨0⟩ []
    let a := oneCall "second" "g" ⟨0xfff8000000000001⟩ []
    let b := oneCall "third" "f" ⟨0⟩ [⟨0, [.flag "entry_point"]⟩]
    (∃ t, Assembly.parse (Assembly.print a) = .ok t ∧ t.shown = a.shown) ∧
      Bitcode.decode (Bitcode.encode b) = .ok b ∧
      checkRenderings m (Assembly.print a) (Bitcode.encode b) = .error (.attributes .bitcode) := by
  intro m a b
  have ha : ∃ t, Assembly.parse (Assembly.print a) = .ok t ∧ t.shown = a.shown := by
    refine ⟨a.shown, ?_, by decide⟩
    rw [← Assembly.print_shown]
    exact Assembly.parse_print_of_legible (by decide) (List.forall_mem_map.mpr fun f _ =>
      List.forall_mem_map.mpr fun block _ => block.legible_shown) (by decide +kernel)
  have hshaped : ∀ f ∈ b.functions, f.Shaped :=
    List.forall_mem_singleton.mpr ⟨List.forall_mem_singleton.mpr (by decide), by decide⟩
  have hb : Bitcode.decode (Bitcode.encode b) = .ok b :=
    Bitcode.decode_encode_of_callsFit ⟨List.forall_mem_singleton.mpr nofun,
      List.forall_mem_singleton.mpr nofun, by decide, hshaped⟩
      (Bitcode.length_encode_lt_of_extent (by decide +kernel)) (by decide)
  exact ⟨ha, hb, ((checkRenderings_print_encode ha hb).2 _).mpr
    (.inr ⟨rfl, .attributes rfl rfl (by decide)⟩)⟩

end CircuitQir
