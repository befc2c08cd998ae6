import CircuitQir.Assembly.Parser
import CircuitQir.Proofs.Assembly.Grammar
import CircuitQir.Proofs.Checked
/-!
# What a text can spell

A module is spellable if its names are names and its texts can stand in quotes on a line. The
rules yield nothing else: a name is taken character by character, a quoted text ends at the first
quote, and no rule gets to see a line feed. `Draft.Adds` says once what a line can add. So every
module that is read from a text is spellable (`spellable_of_parse`), whatever the text.
-/

namespace CircuitQir.Ir

open Assembly

/-- The names in the function are names. -/
structure Function.Spellable (f : Function) : Prop where
  name : IsName f.name
  labels : ∀ b ∈ f.blocks, IsName b.label
  callees : ∀ b ∈ f.blocks, ∀ i ∈ b.instructions, ∀ callee ∈ i.callee?, IsName callee

instance : DecidablePred Function.Spellable := fun f =>
  decidable_of_iff
    (IsName f.name ∧ (∀ b ∈ f.blocks, IsName b.label) ∧
      ∀ b ∈ f.blocks, ∀ i ∈ b.instructions, ∀ callee ∈ i.callee?, IsName callee)
    ⟨fun ⟨name, labels, callees⟩ => ⟨name, labels, callees⟩,
      fun ⟨name, labels, callees⟩ => ⟨name, labels, callees⟩⟩

/-- The names in the module are names, and its other texts can stand in quotes. -/
structure Module.Spellable (m : Module) : Prop where
  sourceName : Quotable m.sourceName
  declarations : ∀ d ∈ m.declarations, IsName d.name
  functions : ∀ f ∈ m.functions, f.Spellable
  attributes : ∀ g ∈ m.attributeGroups, ∀ a ∈ g.attributes, ∀ s ∈ a.strings, Quotable s
  flags : ∀ f ∈ m.flags, Quotable f.key

instance : DecidablePred Module.Spellable := fun m =>
  decidable_of_iff
    (Quotable m.sourceName ∧ (∀ d ∈ m.declarations, IsName d.name) ∧
      (∀ f ∈ m.functions, f.Spellable) ∧
      (∀ g ∈ m.attributeGroups, ∀ a ∈ g.attributes, ∀ s ∈ a.strings, Quotable s) ∧
      ∀ f ∈ m.flags, Quotable f.key)
    ⟨fun ⟨sourceName, declarations, functions, attributes, flags⟩ =>
        ⟨sourceName, declarations, functions, attributes, flags⟩,
      fun ⟨sourceName, declarations, functions, attributes, flags⟩ =>
        ⟨sourceName, declarations, functions, attributes, flags⟩⟩

end CircuitQir.Ir

namespace CircuitQir.Assembly

open Ir

namespace Rule

variable {α β : Type}

/-- On a line without line feeds the rule yields values of a kind, and leaves no line feed. -/
def Yields (r : Rule α) (p : α → Prop) : Prop :=
  ∀ line x rest, '\n' ∉ line → r line = .ok (x, rest) → p x ∧ '\n' ∉ rest

/-- The rule leaves no line feed on a line without one. -/
abbrev Tidy (r : Rule α) : Prop := r.Yields fun _ => True

variable {r s : Rule α} {p : α → Prop} {q : β → Prop}

theorem yields_pure {x : α} (h : p x) : Yields (pure x : Rule α) p := by
  intro line y rest hline heq
  obtain ⟨rfl, rfl⟩ := Prod.mk.inj (Except.ok.inj heq)
  exact ⟨h, hline⟩

theorem yields_fail : Yields (fail : Rule α) p := by
  intro line y rest _ heq
  cases heq

theorem Yields.bind (hr : r.Yields p) {f : α → Rule β} (hf : ∀ x, p x → (f x).Yields q) :
    (r >>= f).Yields q := by
  intro line y rest hline heq
  cases hx : r line with
  | error at_ =>
    rw [bind_error f hx] at heq
    cases heq
  | ok result =>
    obtain ⟨x, middle⟩ := result
    rw [bind_ok hx] at heq
    obtain ⟨hp, hmiddle⟩ := hr line x middle hline hx
    exact hf x hp middle y rest hmiddle heq

theorem Yields.mono (hr : r.Yields p) {p' : α → Prop} (h : ∀ x, p x → p' x) : r.Yields p' :=
  fun line x rest hline heq => (hr line x rest hline heq).imp_left (h x)

theorem Yields.tidy (hr : r.Yields p) : r.Tidy := hr.mono fun _ _ => trivial

theorem Yields.either (hr : r.Yields p) (hs : s.Yields p) : (either r s).Yields p := by
  intro line x rest hline heq
  cases hx : r line with
  | error at_ =>
    rw [either_error s hx] at heq
    exact hs line x rest hline heq
  | ok result =>
    rw [either_ok s hx] at heq
    exact hr line x rest hline (hx.trans heq)

theorem yields_choice : ∀ {rs : List (Rule α)}, (∀ r ∈ rs, r.Yields p) → (choice rs).Yields p
  | [], _ => yields_fail
  | [_], h => h _ List.mem_cons_self
  | _ :: _ :: _, h =>
    (h _ List.mem_cons_self).either (yields_choice fun r hr => h r (List.mem_cons_of_mem _ hr))

theorem Yields.optional (hr : r.Yields p) : (optional r).Yields fun x => ∀ y ∈ x, p y := by
  intro line x rest hline heq
  cases hx : r line with
  | error at_ =>
    rw [optional_error hx] at heq
    obtain ⟨rfl, rfl⟩ := Prod.mk.inj (Except.ok.inj heq)
    exact ⟨nofun, hline⟩
  | ok result =>
    obtain ⟨y, rest'⟩ := result
    rw [optional_ok hx] at heq
    obtain ⟨rfl, rfl⟩ := Prod.mk.inj (Except.ok.inj heq)
    obtain ⟨hy, hrest⟩ := hr line y rest' hline hx
    exact ⟨fun z hz => Option.some.inj hz ▸ hy, hrest⟩

theorem afterPrefix?_suffix : ∀ {cs line rest : List Char},
    afterPrefix? cs line = some rest → rest <:+ line
  | [], _, _, h => Option.some.inj h ▸ List.suffix_rfl
  | c :: cs, d :: line, rest, h => by
    rw [afterPrefix?] at h
    split at h
    · exact (afterPrefix?_suffix h).trans (List.suffix_cons d line)
    · cases h

theorem tidy_literal (text : String) : (literal text).Tidy := by
  intro line x rest hline heq
  unfold literal at heq
  split at heq
  · rename_i hrest
    obtain ⟨-, rfl⟩ := Prod.mk.inj (Except.ok.inj heq)
    exact ⟨trivial, fun hmem => hline ((afterPrefix?_suffix hrest).mem hmem)⟩
  · cases heq

theorem tidy_keyword (text : String) : (keyword text).Tidy := by
  intro line x rest hline heq
  unfold keyword at heq
  split at heq
  · obtain ⟨-, rfl⟩ := Prod.mk.inj (Except.ok.inj heq)
    exact ⟨trivial, fun hmem => hline (List.mem_of_mem_drop hmem)⟩
  · cases heq

theorem yields_many (c : Char → Bool) :
    (many c).Yields fun cs => ∀ x ∈ cs, c x = true ∧ x ≠ '\n' := by
  intro line cs rest hline heq
  obtain ⟨rfl, rfl⟩ := Prod.mk.inj (Except.ok.inj heq)
  refine ⟨fun x hx => ⟨List.all_eq_true.mp List.all_takeWhile x hx, ?_⟩, fun hmem => ?_⟩
  · rintro rfl
    exact hline ((List.takeWhile_prefix c).mem hx)
  · exact hline ((List.dropWhile_suffix c).mem hmem)

theorem yields_many1 (c : Char → Bool) :
    (many1 c).Yields fun cs => cs ≠ [] ∧ ∀ x ∈ cs, c x = true := by
  intro line cs rest hline heq
  unfold many1 at heq
  split at heq
  · cases heq
  · rename_i hne
    obtain ⟨hcs, hrest⟩ := yields_many c line cs rest hline heq
    obtain ⟨rfl, -⟩ := Prod.mk.inj (Except.ok.inj heq)
    exact ⟨⟨by simpa using hne, fun x hx => (hcs x hx).1⟩, hrest⟩

/-! ## Lists -/

theorem Yields.more {item : Rule α} (hitem : item.Yields p) (separator : String) :
    ∀ {line : List Char}, '\n' ∉ line →
      (∀ x ∈ (more separator item line).1, p x) ∧ '\n' ∉ (more separator item line).2 := by
  intro line hline
  induction line using more.induct separator item with
  | case1 line x rest heq hlt _ _ _ ih =>
    obtain ⟨hx, hrest⟩ := ((tidy_literal separator).bind fun _ _ => hitem) line x rest hline heq
    obtain ⟨hxs, hend⟩ := ih hrest
    rw [more_ok heq hlt]
    exact ⟨List.forall_mem_cons.mpr ⟨hx, hxs⟩, hend⟩
  | case2 line x rest heq hlt =>
    rw [more_stuck heq hlt]
    exact ⟨nofun, hline⟩
  | case3 line at_ heq =>
    rw [more_error heq]
    exact ⟨nofun, hline⟩

theorem Yields.separated {item : Rule α} (hitem : item.Yields p) (separator : String) :
    (separated separator item).Yields fun xs => ∀ x ∈ xs, p x := by
  intro line xs rest hline heq
  cases hx : item line with
  | error at_ =>
    rw [separated_error hx] at heq
    obtain ⟨rfl, rfl⟩ := Prod.mk.inj (Except.ok.inj heq)
    exact ⟨nofun, hline⟩
  | ok result =>
    obtain ⟨x, middle⟩ := result
    rw [separated_ok hx] at heq
    obtain ⟨rfl, rfl⟩ := Prod.mk.inj (Except.ok.inj heq)
    obtain ⟨hp, hmiddle⟩ := hitem line x middle hline hx
    obtain ⟨hmore, hrest⟩ := hitem.more separator hmiddle
    exact ⟨List.forall_mem_cons.mpr ⟨hp, hmore⟩, hrest⟩

/-! ## Numbers -/

theorem tidy_digits : digits.Tidy := by
  intro line ds rest hline heq
  unfold digits at heq
  split at heq
  · obtain ⟨-, rfl⟩ := Prod.mk.inj (Except.ok.inj heq)
    exact ⟨trivial, fun hmem => hline (List.mem_cons_of_mem _ hmem)⟩
  · exact (yields_many1 Char.isDigit).tidy line ds rest hline heq

theorem tidy_natural (bound : Nat) : (natural bound).Tidy := by
  intro line n rest hline heq
  unfold natural at heq
  split at heq
  · rename_i ds rest' hdigits
    split at heq
    · obtain ⟨-, rfl⟩ := Prod.mk.inj (Except.ok.inj heq)
      exact tidy_digits line ds rest' hline hdigits |>.imp_left fun _ => trivial
    · cases heq
  · cases heq

theorem tidy_integer (bound : Nat) : (integer bound).Tidy := by
  intro line n rest hline heq
  cases hdigits : digits (line.drop ((line.take 1).filter isSign).length) with
  | error at_ =>
    unfold integer at heq
    dsimp only at heq
    rw [hdigits] at heq
    cases heq
  | ok result =>
    obtain ⟨ds, rest'⟩ := result
    have hrest := (tidy_digits _ ds rest' (fun hmem => hline (List.mem_of_mem_drop hmem))
      hdigits).2
    rw [integer_of_digits line _ rfl hdigits rfl rfl] at heq
    generalize (if (line.take 1).filter isSign = ['-'] then -(Numeral.value ds : Int)
      else Numeral.value ds) = v at heq
    split at heq
    · cases heq
    · split at heq
      · obtain ⟨-, rfl⟩ := Prod.mk.inj (Except.ok.inj heq)
        exact ⟨trivial, hrest⟩
      · cases heq

theorem tidy_sign : sign.Tidy := by
  intro line b rest hline heq
  unfold sign at heq
  split at heq
  all_goals obtain ⟨-, rfl⟩ := Prod.mk.inj (Except.ok.inj heq)
  · exact ⟨trivial, fun hmem => hline (List.mem_cons_of_mem _ hmem)⟩
  · exact ⟨trivial, fun hmem => hline (List.mem_cons_of_mem _ hmem)⟩
  · exact ⟨trivial, hline⟩

theorem tidy_pointed : pointed.Tidy := by
  refine Yields.either ?_ ?_
  · exact (yields_many1 _).bind fun whole _ =>
      ((tidy_literal ".").bind fun _ _ => yields_many _).optional.bind fun _ _ =>
        yields_pure trivial
  · exact (tidy_literal ".").bind fun _ _ => (yields_many1 _).bind fun _ _ => yields_pure trivial

theorem tidy_power : power.Tidy := by
  intro line n rest hline heq
  cases line with
  | nil =>
    obtain ⟨-, rfl⟩ := Prod.mk.inj (Except.ok.inj heq)
    exact ⟨trivial, hline⟩
  | cons c line =>
    have hrule : Tidy (do
        let negative ← sign
        let n : Int := Numeral.value (← many1 Char.isDigit)
        return if negative then -n else n) :=
      tidy_sign.bind fun _ _ => (yields_many1 _).bind fun _ _ => yields_pure trivial
    by_cases hletter : (c == 'e' || c == 'E') = true
    · have hpower : power (c :: line) = (do
          let negative ← sign
          let n : Int := Numeral.value (← many1 Char.isDigit)
          return if negative then -n else n : Rule Int) line := by
        show (if c == 'e' || c == 'E' then _ else _ : Rule Int) (c :: line) = _
        rw [if_pos hletter]
        rfl
      exact hrule line n rest (fun hmem => hline (List.mem_cons_of_mem c hmem))
        (hpower.symm.trans heq)
    · have hpower : power (c :: line) = .ok (0, c :: line) := by
        show (if c == 'e' || c == 'E' then _ else _ : Rule Int) (c :: line) = _
        rw [if_neg hletter]
        rfl
      obtain ⟨-, rfl⟩ := Prod.mk.inj (Except.ok.inj (hpower.symm.trans heq))
      exact ⟨trivial, hline⟩

theorem yields_decimal : decimal.Yields fun d => d.isNaN = false :=
  tidy_sign.bind fun negative _ => tidy_pointed.bind fun _ _ => tidy_power.bind fun _ _ =>
    yields_pure (Double.isNaN_ofMagnitude negative (Decimal.magnitude_le_infinity _))

/-- The only NaN that is read is the one with a name. -/
theorem yields_float : float.Yields Double.Legible := by
  have hinfinity (text : String) : Yields (do
      let negative ← sign
      keyword text
      return Double.infinity negative) Double.Legible :=
    tidy_sign.bind fun negative _ => (tidy_keyword _).bind fun _ _ =>
      yields_pure (Double.legible_of_not_isNaN (Double.isNaN_ofMagnitude negative (Nat.le_refl _)))
  refine yields_choice ?_
  intro r hr
  simp only [List.mem_cons, List.not_mem_nil, or_false] at hr
  rcases hr with rfl | rfl | rfl | rfl
  · exact yields_decimal.mono fun _ => Double.legible_of_not_isNaN
  · exact (tidy_keyword _).bind fun _ _ => yields_pure fun _ => rfl
  · exact hinfinity "infinity"
  · exact hinfinity "inf"

end Rule

open Rule

/-! ## Parts of a line -/

theorem yields_name : Yields name IsName := by
  refine (yields_many1 isNameCharacter).bind fun cs hcs => yields_pure ⟨?_, ?_⟩
  · simpa using hcs.1
  · simpa using hcs.2

theorem yields_quoted : Yields quoted Quotable := by
  refine (tidy_literal _).bind fun _ _ => (yields_many _).bind fun cs hcs =>
    (tidy_literal _).bind fun _ _ => yields_pure ⟨fun hmem => ?_, fun hmem => ?_⟩
  · rw [String.toList_ofList] at hmem
    exact absurd (hcs _ hmem).1 (by decide)
  · rw [String.toList_ofList] at hmem
    exact (hcs _ hmem).2 rfl

theorem tidy_word {α : Type} (text : String) (value : α) : Tidy (word text value) :=
  (tidy_literal text).bind fun _ _ => yields_pure trivial

theorem tidy_valueType : Tidy valueType := by
  refine yields_choice ?_
  intro r hr
  simp only [List.mem_cons, List.not_mem_nil, or_false] at hr
  rcases hr with rfl | rfl | rfl | rfl <;> exact tidy_word _ _

theorem tidy_resultType : Tidy resultType :=
  (tidy_word _ _).either (tidy_valueType.bind fun _ _ => yields_pure trivial)

theorem tidy_boolean : Tidy boolean := (tidy_word _ _).either (tidy_word _ _)

theorem tidy_groupReference : Tidy groupReference :=
  ((tidy_literal _).bind fun _ _ => tidy_natural _).optional.bind fun _ _ => yields_pure trivial

theorem yields_operand : Yields operand Operand.Legible := by
  refine yields_choice ?_
  intro r hr
  simp only [List.mem_cons, List.not_mem_nil, or_false] at hr
  rcases hr with rfl | rfl | rfl | rfl | rfl
  · exact (tidy_literal _).bind fun _ _ => tidy_boolean.bind fun _ _ => yields_pure trivial
  · exact (tidy_literal _).bind fun _ _ => (tidy_integer _).bind fun _ _ => yields_pure trivial
  · exact (tidy_literal _).bind fun _ _ => yields_float.bind fun _ hd => yields_pure hd
  · exact (tidy_literal _).bind fun _ _ => yields_pure trivial
  · exact (tidy_literal _).bind fun _ _ => (tidy_natural _).bind fun _ _ =>
      (tidy_literal _).bind fun _ _ => yields_pure trivial

theorem yields_parenthesized {α : Type} {item : Rule α} {p : α → Prop} (h : item.Yields p) :
    Yields (parenthesized item) fun xs => ∀ x ∈ xs, p x :=
  (tidy_literal _).bind fun _ _ => (h.separated _).bind fun _ hxs =>
    (tidy_literal _).bind fun _ _ => yields_pure hxs

theorem yields_groupMember : Yields groupMember fun a => ∀ s ∈ a.strings, Quotable s := by
  refine yields_quoted.bind fun key hkey =>
    ((tidy_literal "=").bind fun _ _ => yields_quoted).optional.bind fun value hvalue => ?_
  cases value with
  | none => exact yields_pure (by simpa [Attribute.strings] using hkey)
  | some value =>
    exact yields_pure (by simpa [Attribute.strings] using And.intro hkey (hvalue value rfl))

theorem tidy_flagValue : Tidy flagValue := by
  refine Yields.either ?_ ?_
  · exact (tidy_literal _).bind fun _ _ => (tidy_integer _).bind fun _ _ => yields_pure trivial
  · exact (tidy_literal _).bind fun _ _ => tidy_boolean.bind fun _ _ => yields_pure trivial

/-! ## Lines -/

theorem yields_instruction : Yields instruction fun i =>
    (∀ callee ∈ i.callee?, IsName callee) ∧ ∀ o ∈ i.args, o.Legible := by
  refine Yields.either ?_ ?_
  · exact (tidy_literal _).bind fun _ _ => yields_pure ⟨nofun, nofun⟩
  · refine (tidy_literal _).bind fun _ _ => tidy_resultType.bind fun _ _ =>
      (tidy_literal _).bind fun _ _ => yields_name.bind fun callee hcallee =>
        (yields_parenthesized yields_operand).bind fun _ hargs => yields_pure ⟨?_, hargs⟩
    intro name hname
    exact Option.some.inj hname ▸ hcallee

theorem yields_sourceName : Yields sourceName Quotable :=
  (tidy_literal _).bind fun _ _ => yields_quoted

theorem yields_declaration : Yields declaration fun d => IsName d.name :=
  (tidy_literal _).bind fun _ _ => tidy_resultType.bind fun _ _ =>
    (tidy_literal _).bind fun _ _ => yields_name.bind fun _ hname =>
      (yields_parenthesized tidy_valueType).bind fun _ _ =>
        tidy_groupReference.bind fun _ _ => yields_pure hname

theorem yields_header : Yields header fun f => f.Spellable ∧ f.blocks = [] :=
  (tidy_literal _).bind fun _ _ => tidy_resultType.bind fun _ _ =>
    (tidy_literal _).bind fun _ _ => yields_name.bind fun _ hname =>
      (tidy_literal _).bind fun _ _ => tidy_groupReference.bind fun _ _ =>
        (tidy_literal _).bind fun _ _ => yields_pure ⟨⟨hname, nofun, nofun⟩, rfl⟩

theorem yields_attributeGroup :
    Yields attributeGroup fun g => ∀ a ∈ g.attributes, ∀ s ∈ a.strings, Quotable s :=
  (tidy_literal _).bind fun _ _ => (tidy_natural _).bind fun _ _ =>
    (tidy_literal _).bind fun _ _ => (yields_groupMember.separated _).bind fun _ hattributes =>
      (tidy_literal _).bind fun _ _ => yields_pure hattributes

theorem yields_moduleFlag : Yields moduleFlag fun f => Quotable f.key :=
  (tidy_literal _).bind fun _ _ => (tidy_natural _).bind fun _ _ =>
    (tidy_literal _).bind fun _ _ => (tidy_natural _).bind fun _ _ =>
      (tidy_literal _).bind fun _ _ => yields_quoted.bind fun _ hkey =>
        (tidy_literal _).bind fun _ _ => tidy_flagValue.bind fun _ _ =>
          (tidy_literal _).bind fun _ _ => yields_pure hkey

theorem whole_yields {α : Type} {r : Rule α} {p : α → Prop} (hr : r.Yields p)
    {line : List Char} {x : α} (hline : '\n' ∉ line) (h : whole r line = .ok x) : p x := by
  unfold whole at h
  dsimp only at h
  split at h
  · rename_i y hy
    obtain rfl := Except.ok.inj h
    exact (hr line y [] hline hy).1
  · cases h
  · cases h

/-! ## Lines -/

namespace Draft

/-- What a line can add to a draft. -/
inductive Adds : Draft → Draft → Prop
  /-- Some lines add nothing: empty ones, comments, and the list of flags. -/
  | nothing (d : Draft) : Adds d d
  | sourceName (m : Module) {s : String} (hs : Quotable s) :
    Adds ⟨m, none⟩ ⟨{ m with sourceName := s }, none⟩
  | declaration (m : Module) {d : Declaration} (hd : IsName d.name) :
    Adds ⟨m, none⟩ ⟨{ m with declarations := m.declarations ++ [d] }, none⟩
  | header (m : Module) {f : Function} (hf : f.Spellable) (hblocks : f.blocks = []) :
    Adds ⟨m, none⟩ ⟨m, some f⟩
  | attributeGroup (m : Module) {g : AttributeGroup}
    (hg : ∀ a ∈ g.attributes, ∀ s ∈ a.strings, Quotable s) :
    Adds ⟨m, none⟩ ⟨{ m with attributeGroups := m.attributeGroups ++ [g] }, none⟩
  | flag (m : Module) {f : ModuleFlag} (hf : Quotable f.key) :
    Adds ⟨m, none⟩ ⟨{ m with flags := m.flags ++ [f] }, none⟩
  | label (m : Module) (f : Function) {label : String} (hlabel : IsName label) :
    Adds ⟨m, some f⟩ ⟨m, some { f with blocks := f.blocks ++ [⟨label, []⟩] }⟩
  | instruction (m : Module) (f : Function) (front : List Block) (b : Block) {i : Instruction}
    (hcallee : ∀ callee ∈ i.callee?, IsName callee) (hargs : ∀ o ∈ i.args, o.Legible)
    (hblocks : f.blocks = front ++ [b]) :
    Adds ⟨m, some f⟩ ⟨m, some { f with blocks := front ++ [appendTo b i] }⟩
  | close (m : Module) (f : Function) :
    Adds ⟨m, some f⟩ ⟨{ m with functions := m.functions ++ [f] }, none⟩

theorem adds_of_bodyLine {m : Module} {f : Function} {line : List Char} {d : Draft}
    (hline : '\n' ∉ line) (h : bodyLine m f line = .ok d) : Adds ⟨m, some f⟩ d := by
  unfold bodyLine at h
  split at h
  · obtain rfl := Except.ok.inj h
    exact .close m f
  split at h
  · obtain ⟨label, hlabel, h⟩ := bind_eq_ok h
    obtain rfl := Except.ok.inj h
    have hshort : '\n' ∉ line.dropLast := fun hmem => hline (List.dropLast_subset _ hmem)
    exact .label m f (whole_yields yields_name hshort hlabel)
  · obtain ⟨i, hi, h⟩ := bind_eq_ok h
    obtain ⟨f', hf', h⟩ := bind_eq_ok h
    obtain rfl := Except.ok.inj h
    obtain ⟨hcallee, hargs⟩ := whole_yields yields_instruction hline hi
    unfold appended at hf'
    split at hf'
    · rename_i b hb
      obtain rfl := Except.ok.inj hf'
      exact .instruction m f f.blocks.dropLast b hcallee hargs
        (List.dropLast_append_getLast? b hb).symm
    · cases hf'

theorem adds_of_moduleLine {m : Module} {line : List Char} {d : Draft} (hline : '\n' ∉ line)
    (h : moduleLine m line = .ok d) : Adds ⟨m, none⟩ d := by
  unfold moduleLine at h
  split at h
  · obtain ⟨name, hname, h⟩ := bind_eq_ok h
    obtain rfl := Except.ok.inj h
    exact .sourceName m (whole_yields yields_sourceName hline hname)
  split at h
  · obtain ⟨decl, hdecl, h⟩ := bind_eq_ok h
    obtain rfl := Except.ok.inj h
    exact .declaration m (whole_yields yields_declaration hline hdecl)
  split at h
  · obtain ⟨f, hf, h⟩ := bind_eq_ok h
    obtain rfl := Except.ok.inj h
    obtain ⟨hspellable, hblocks⟩ := whole_yields yields_header hline hf
    exact .header m hspellable hblocks
  split at h
  · obtain ⟨g, hg, h⟩ := bind_eq_ok h
    obtain rfl := Except.ok.inj h
    exact .attributeGroup m (whole_yields yields_attributeGroup hline hg)
  split at h
  · obtain rfl := Except.ok.inj h
    exact .nothing _
  split at h
  · obtain ⟨f, hf, h⟩ := bind_eq_ok h
    obtain rfl := Except.ok.inj h
    exact .flag m (whole_yields yields_moduleFlag hline hf)
  · cases h

theorem feed_trimmed {raw : List Char} (h : '\n' ∉ raw) : '\n' ∉ trimmed raw := by
  intro hmem
  rw [trimmed, List.mem_reverse] at hmem
  have hmiddle := (List.dropWhile_suffix isBlank).mem hmem
  rw [List.mem_reverse] at hmiddle
  exact h ((List.dropWhile_suffix isBlank).mem hmiddle)

theorem adds_of_line {d d' : Draft} {raw : List Char} (hraw : '\n' ∉ raw)
    (h : d.line raw = .ok d') : Adds d d' := by
  obtain ⟨m, current⟩ := d
  unfold line at h
  dsimp only at h
  split at h
  · obtain rfl := Except.ok.inj h
    exact .nothing _
  · cases current with
    | some f => exact adds_of_bodyLine (feed_trimmed hraw) h
    | none => exact adds_of_moduleLine (feed_trimmed hraw) h

/-- What no line can undo holds behind any number of them. -/
theorem lines_invariant {p : Draft → Prop} (hp : ∀ d d', Adds d d' → p d → p d')
    {ls : List (List Char)} (hls : ∀ l ∈ ls, '\n' ∉ l) :
    ∀ {d d' : Draft} {number : Nat}, p d → d.lines number ls = .ok d' → p d' := by
  induction ls with
  | nil =>
    intro d d' number hd h
    obtain rfl := Except.ok.inj h
    exact hd
  | cons l ls ih =>
    intro d d' number hd h
    unfold lines at h
    split at h
    · rename_i d'' hd''
      exact ih (fun l' hl' => hls l' (List.mem_cons_of_mem l hl'))
        (hp d d'' (adds_of_line (hls l List.mem_cons_self) hd'') hd) h
    · cases h

end Draft

/-! ## Texts -/

theorem feed_linesFrom {text begun : List Char} (hbegun : '\n' ∉ begun) :
    ∀ l ∈ linesFrom begun text, '\n' ∉ l := by
  have hreverse {begun : List Char} (h : '\n' ∉ begun) : '\n' ∉ begun.reverse := by
    rwa [List.mem_reverse]
  have hreturn {line : List Char} (h : '\n' ∉ line) : '\n' ∉ withoutReturn line := by
    unfold withoutReturn
    split
    · exact fun hmem => h (List.dropLast_subset _ hmem)
    · exact h
  induction begun, text using linesFrom.induct with
  | case1 begun hempty =>
    intro l hl
    rw [linesFrom, if_pos hempty] at hl
    cases hl
  | case2 begun hempty =>
    intro l hl
    rw [linesFrom, if_neg hempty] at hl
    obtain rfl := List.mem_singleton.mp hl
    exact hreverse hbegun
  | case3 begun cs ih =>
    rw [linesFrom]
    exact List.forall_mem_cons.mpr ⟨hreturn (hreverse hbegun), ih List.not_mem_nil⟩
  | case4 begun c cs hc ih =>
    rw [linesFrom]
    · exact ih fun hmem => (List.mem_cons.mp hmem).elim (fun heq => hc heq.symm) hbegun
    · exact hc

/-- What no line can undo holds of every module that is read. -/
theorem parse_invariant {p : Draft → Prop} (hp : ∀ d d', Draft.Adds d d' → p d → p d')
    (hempty : p .empty) {text : String} {m : Module} (h : parse text = .ok m) : p ⟨m, none⟩ := by
  unfold parse at h
  dsimp only at h
  obtain ⟨⟨m', current⟩, hd, h⟩ := bind_eq_ok h
  have hlast := Draft.lines_invariant hp (feed_linesFrom List.not_mem_nil) hempty hd
  cases current with
  | none =>
    obtain rfl := Except.ok.inj h
    exact hlast
  | some f => cases h

/-- All that has been read is spellable. -/
structure Draft.Spellable (d : Draft) : Prop where
  module : d.module.Spellable
  current : ∀ f ∈ d.current, f.Spellable

theorem Draft.Adds.spellable {d d' : Draft} (h : Adds d d') (hd : d.Spellable) : d'.Spellable := by
  obtain ⟨hm, hcurrent⟩ := hd
  cases h with
  | nothing => exact ⟨hm, hcurrent⟩
  | sourceName m hs => exact ⟨{ hm with sourceName := hs }, nofun⟩
  | declaration m hd =>
    have hall := List.forall_mem_append.mpr ⟨hm.declarations, List.forall_mem_singleton.mpr hd⟩
    exact ⟨{ hm with declarations := hall }, nofun⟩
  | header m hf => exact ⟨hm, fun _ heq => Option.some.inj heq ▸ hf⟩
  | attributeGroup m hg =>
    have hall := List.forall_mem_append.mpr ⟨hm.attributes, List.forall_mem_singleton.mpr hg⟩
    exact ⟨{ hm with attributes := hall }, nofun⟩
  | flag m hf =>
    have hall := List.forall_mem_append.mpr ⟨hm.flags, List.forall_mem_singleton.mpr hf⟩
    exact ⟨{ hm with flags := hall }, nofun⟩
  | label m f hlabel =>
    obtain ⟨hname, hlabels, hcallees⟩ := hcurrent f rfl
    refine ⟨hm, fun f' hf' => ?_⟩
    obtain rfl := Option.some.inj hf'
    exact ⟨hname,
      List.forall_mem_append.mpr ⟨hlabels, List.forall_mem_singleton.mpr hlabel⟩,
      List.forall_mem_append.mpr ⟨hcallees, List.forall_mem_singleton.mpr nofun⟩⟩
  | instruction m f front b hcallee hargs hblocks =>
    obtain ⟨hname, hlabels, hcallees⟩ := hcurrent f rfl
    rw [hblocks, List.forall_mem_append, List.forall_mem_singleton] at hlabels hcallees
    have hlast := List.forall_mem_append.mpr ⟨hcallees.2, List.forall_mem_singleton.mpr hcallee⟩
    refine ⟨hm, fun f' hf' => ?_⟩
    obtain rfl := Option.some.inj hf'
    exact ⟨hname,
      List.forall_mem_append.mpr ⟨hlabels.1, List.forall_mem_singleton.mpr hlabels.2⟩,
      List.forall_mem_append.mpr ⟨hcallees.1, List.forall_mem_singleton.mpr hlast⟩⟩
  | close m f =>
    have hlast := List.forall_mem_singleton.mpr (hcurrent f rfl)
    exact ⟨{ hm with functions := List.forall_mem_append.mpr ⟨hm.functions, hlast⟩ }, nofun⟩

/-- Whatever is read from a text is spellable. -/
theorem spellable_of_parse {text : String} {m : Module} (h : parse text = .ok m) :
    m.Spellable := by
  have hempty : Draft.Spellable Draft.empty :=
    ⟨⟨⟨by decide, by decide⟩, nofun, nofun, nofun, nofun⟩, nofun⟩
  exact (parse_invariant (fun _ _ => Draft.Adds.spellable) hempty h).module

end CircuitQir.Assembly
