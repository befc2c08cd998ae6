import CircuitQir.Proofs.Assembly.RoundTrip
/-!
# What was read can be written

A text may be laid out in many ways, and much of it leaves no trace: indentation, comments, line
ends, the types in front of calls, the numbers of flags. What is left is spellable, and every
instruction is one that a line has been read as, so that its operands can be told from their text.
Hence the module is read back from the text that the printer gives it, which is a normal form of
the text that was read first (`parse_print_of_parse`).
-/

namespace CircuitQir.Assembly

open Ir

namespace Draft

/-- All instructions read so far, those of the function being read included. -/
def instructions (d : Draft) : List Instruction :=
  d.module.instructions ++
    d.current.toList.flatMap fun f => f.blocks.flatMap (·.instructions)

/-- Their operands can be told from their text. -/
def Legible (d : Draft) : Prop := ∀ i ∈ d.instructions, ∀ o ∈ i.args, o.Legible

theorem Adds.legible {d d' : Draft} (h : Adds d d') (hd : d.Legible) : d'.Legible := by
  unfold Legible instructions Module.instructions at hd ⊢
  cases h with
  | nothing | sourceName | declaration | attributeGroup | flag => exact hd
  | header m hf hblocks => simpa [hblocks] using hd
  | label | close => simpa using hd
  | instruction m f front b hcallee hargs hblocks =>
    simp only [Option.toList_some, List.flatMap_singleton, hblocks, List.flatMap_append, appendTo,
      ← List.append_assoc] at hd ⊢
    exact List.forall_mem_append.mpr ⟨hd, List.forall_mem_singleton.mpr hargs⟩

end Draft

/-- The operands of a module that was read can be told from their text. -/
theorem legible_of_parse {text : String} {m : Module} (h : parse text = .ok m) :
    ∀ i ∈ m.instructions, ∀ o ∈ i.args, o.Legible := by
  have hlegible := parse_invariant (fun _ _ => Draft.Adds.legible)
    (fun i hi => absurd hi List.not_mem_nil) h
  simpa [Draft.Legible, Draft.instructions] using hlegible

/-- However a text is laid out, the module that is read from it is read back from the text it is
printed as, provided that its flags can be numbered. So printing it once more gives that same
text, and of all NaNs only the one with a name is ever read. -/
theorem parse_print_of_parse {text : String} {m : Module} (h : parse text = .ok m)
    (hcount : m.flags.length ≤ 2 ^ 32) :
    parse (print m) = .ok m ∧ (∀ m', parse (print m) = .ok m' → print m' = print m) ∧
      ∀ i ∈ m.instructions, ∀ d, .double d ∈ i.args → d.isNaN = true → d = Double.nan := by
  have hlegible := legible_of_parse h
  have hread : parse (print m) = .ok m := by
    refine parse_print_of_legible hcount (fun f hf b hb i hi => ?_) (spellable_of_parse h)
    exact hlegible i (List.mem_flatMap.mpr ⟨f, hf, List.mem_flatMap.mpr ⟨b, hb, hi⟩⟩)
  refine ⟨hread, fun m' hm' => ?_, fun i hi d hd => hlegible i hi (.double d) hd⟩
  obtain rfl := Except.ok.inj (hread.symm.trans hm')
  rfl

/-- A text that the printer would lay out in another way: the function stands ahead of what it
calls, the type of the call is not the one declared, and the flags are numbered out of order. -/
def looseText : String :=
  "!7 = !\x7bi32 7, !\"k\", i1 true\x7d\r\n\tdefine void @m() #7 \x7b\n; comment\r\n\n" ++
    "  1.:  \n\tcall i64 @f(double NAN)\r\nret void\n \x7d \n" ++
    "!0 = !\x7bi32 1, !\"\", i32 -3\x7d\ndeclare double @f(double)"

/-- What that text is read as. -/
def looseModule : Module where
  sourceName := ""
  declarations := [⟨"f", [.double], some .double, none⟩]
  functions := [⟨"m", none, some 7, [⟨"1.", [.call "f" [.double .nan], .ret]⟩]⟩]
  attributeGroups := []
  flags := [⟨7, "k", .bool true⟩, ⟨1, "", .i32 (-3)⟩]

theorem parse_print_looseText : parse looseText = .ok looseModule ∧
    looseModule.flags.length ≤ 2 ^ 32 ∧ parse (print looseModule) = .ok looseModule := by
  have hread : parse looseText = .ok looseModule := by decide +kernel
  exact ⟨hread, by decide, (parse_print_of_parse hread (by decide)).1⟩

end CircuitQir.Assembly
