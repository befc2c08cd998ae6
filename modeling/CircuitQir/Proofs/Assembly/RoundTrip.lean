import CircuitQir.Proofs.Assembly.Lines
import CircuitQir.Proofs.Assembly.Spelling
/-!
# Reading modules back from text

The text of a module is taken in line by line. Each line adds to the draft what it was written
for (`Draft.Leads`), and the lines between add nothing, so that in the end the draft is the
module. This works for every spellable module, and for no other one: what is read is spellable.
-/

namespace CircuitQir.Assembly

open Ir

namespace Draft

/-! ## Taking in lines -/

/-- These are whole lines, and taking them in leads from one draft to another. -/
structure Leads (d : Draft) (ls : List String) (d' : Draft) : Prop where
  ends : ∀ l ∈ ls, Ends l.toList
  lines : ∀ number rest,
    d.lines number (ls.map String.toList ++ rest) = d'.lines (number + ls.length) rest

namespace Leads

variable {d d' d'' : Draft}

theorem refl (d : Draft) : d.Leads [] d := ⟨nofun, fun _ _ => rfl⟩

theorem trans {ls ls' : List String} (h : d.Leads ls d') (h' : d'.Leads ls' d'') :
    d.Leads (ls ++ ls') d'' where
  ends := List.forall_mem_append.mpr ⟨h.ends, h'.ends⟩
  lines number rest := by
    rw [List.map_append, List.append_assoc, h.lines, h'.lines, List.length_append, Nat.add_assoc]

theorem one {l : String} (hl : Ends l.toList) (h : d.line l.toList = .ok d') : d.Leads [l] d' where
  ends := List.forall_mem_singleton.mpr hl
  lines number rest := by
    rw [List.map_singleton, List.singleton_append, Draft.lines, h]
    rfl

theorem cons {l : String} {ls : List String} (h : d.Leads [l] d') (h' : d'.Leads ls d'') :
    d.Leads (l :: ls) d'' := h.trans h'

/-- Parts that are written one after the other are added one after the other. -/
theorem flatMap {α : Type} (next : List α → Draft) {text : α → List String} {xs : List α}
    (h : ∀ x ∈ xs, ∀ done, (next done).Leads (text x) (next (done ++ [x]))) (done : List α) :
    (next done).Leads (xs.flatMap text) (next (done ++ xs)) := by
  induction xs generalizing done with
  | nil =>
    rw [List.append_nil]
    exact refl _
  | cons x xs ih =>
    have hrest := ih (fun y hy => h y (List.mem_cons_of_mem x hy)) (done ++ [x])
    rw [List.append_assoc, List.singleton_append] at hrest
    rw [List.flatMap_cons]
    exact (h x List.mem_cons_self done).trans hrest

end Leads

/-! ## Single lines -/

theorem leads_empty (d : Draft) : d.Leads [""] d := .one ⟨by decide, by decide⟩ rfl

theorem leads_comment {s : String} (h : '\n' ∉ s.toList) (d : Draft) :
    d.Leads ["; ModuleID = '" ++ s ++ "'"] d := by
  have hsolid := solid_comment h
  have hskip : d.line ("; ModuleID = '" ++ s ++ "'").toList = .ok d := by
    unfold line
    dsimp only
    rw [hsolid.trimmed, if_pos]
    simp
  exact .one hsolid.ends hskip

theorem line_of_trimmed {raw l : List Char} (htrim : trimmed raw = l) (hl : l ≠ [])
    (hhead : l.head? ≠ some ';') (d : Draft) :
    d.line raw = match d.current with
      | some f => bodyLine d.module f l
      | none => moduleLine d.module l := by
  have hskip : (l.isEmpty || l.head? == some ';') = false := by simp [hl, hhead]
  unfold line
  dsimp only
  rw [htrim, hskip]
  rfl

theorem startsWith_append (text : String) (tail : List Char) :
    startsWith (text.toList ++ tail) text = true := by
  rw [startsWith, List.isPrefixOf_iff_prefix]
  exact List.prefix_append _ _

/-! ## Lines outside of functions -/

variable {m : Module}

theorem line_module {l : String} (hl : Solid l.toList) {text : String} {tail : List Char}
    (htail : l.toList = text.toList ++ tail) (htext : ∃ c ∈ text.toList.head?, c ≠ ';') :
    line ⟨m, none⟩ l.toList = moduleLine m (text.toList ++ tail) := by
  obtain ⟨c, hc, hne⟩ := htext
  obtain hc : text.toList.head? = some c := hc
  have hhead : l.toList.head? ≠ some ';' := by
    rw [htail, List.head?_append, hc]
    exact fun heq => hne (Option.some.inj heq)
  have hline := line_of_trimmed hl.trimmed hl.ne_nil hhead ⟨m, none⟩
  exact hline.trans (congrArg (moduleLine m) htail)

theorem leads_module {l : String} (hl : Solid l.toList) {text : String} {tail : List Char}
    (htail : l.toList = text.toList ++ tail) (htext : ∃ c ∈ text.toList.head?, c ≠ ';')
    {d : Draft} (h : moduleLine m (text.toList ++ tail) = .ok d) : Leads ⟨m, none⟩ [l] d :=
  .one hl.ends ((line_module hl htail htext).trans h)

theorem leads_sourceName {s : String} (h : Quotable s) :
    Leads ⟨m, none⟩ ["source_filename = " ++ quotedText s] ⟨{ m with sourceName := s }, none⟩ := by
  have htail : ("source_filename = " ++ quotedText s).toList =
      "source_filename".toList ++ (" = " ++ quotedText s).toList := by simp
  refine leads_module (solid_sourceName h.2) htail ⟨'s', rfl, by decide⟩ ?_
  rw [moduleLine, if_pos (startsWith_append _ _), ← htail,
    whole_eq_ok_iff.mpr (sourceName_line h.1)]
  rfl

theorem leads_declaration {d : Declaration} (h : IsName d.name) :
    Leads ⟨m, none⟩ [declarationLine d]
      ⟨{ m with declarations := m.declarations ++ [d] }, none⟩ := by
  obtain ⟨tail, htail⟩ : ∃ tail, (declarationLine d).toList = "declare ".toList ++ tail :=
    ⟨_, by simp [declarationLine]; rfl⟩
  refine leads_module (solid_declarationLine h) htail ⟨'d', rfl, by decide⟩ ?_
  rw [moduleLine, if_neg (by exact Bool.false_ne_true), if_pos (startsWith_append _ _), ← htail,
    whole_eq_ok_iff.mpr (declaration_line h)]
  rfl

theorem leads_header {f : Function} (h : IsName f.name) :
    Leads ⟨m, none⟩ [headerLine f] ⟨m, some { f with blocks := [] }⟩ := by
  obtain ⟨tail, htail⟩ : ∃ tail, (headerLine f).toList = "define ".toList ++ tail :=
    ⟨_, by simp [headerLine]; rfl⟩
  refine leads_module (solid_headerLine h) htail ⟨'d', rfl, by decide⟩ ?_
  rw [moduleLine, if_neg (by exact Bool.false_ne_true), if_neg (by exact Bool.false_ne_true),
    if_pos (startsWith_append _ _), ← htail, whole_eq_ok_iff.mpr (header_line h)]
  rfl

theorem leads_attributeGroup {g : AttributeGroup}
    (h : ∀ a ∈ g.attributes, ∀ s ∈ a.strings, Quotable s) :
    Leads ⟨m, none⟩ [groupLine g]
      ⟨{ m with attributeGroups := m.attributeGroups ++ [g] }, none⟩ := by
  obtain ⟨tail, htail⟩ : ∃ tail, (groupLine g).toList = "attributes ".toList ++ tail :=
    ⟨_, by simp [groupLine]; rfl⟩
  refine leads_module (solid_groupLine fun a ha s hs => (h a ha s hs).2) htail
    ⟨'a', rfl, by decide⟩ ?_
  rw [moduleLine, if_neg (by exact Bool.false_ne_true), if_neg (by exact Bool.false_ne_true),
    if_neg (by exact Bool.false_ne_true), if_pos (startsWith_append _ _), ← htail,
    whole_eq_ok_iff.mpr (attributeGroup_line fun a ha s hs => (h a ha s hs).1)]
  rfl

theorem leads_flagList (count : Nat) :
    Leads ⟨m, none⟩ [flagListLine count] ⟨m, none⟩ := by
  obtain ⟨tail, htail⟩ :
      ∃ tail, (flagListLine count).toList = "!llvm.module.flags".toList ++ tail := by
    unfold flagListLine
    generalize joined ", " ((List.range count).map fun i => "!" ++ Numeral.ofNat i) = numbers
    exact ⟨_, by simp; rfl⟩
  refine leads_module (solid_flagListLine count) htail ⟨'!', rfl, by decide⟩ ?_
  rw [moduleLine, if_neg (by exact Bool.false_ne_true), if_neg (by exact Bool.false_ne_true),
    if_neg (by exact Bool.false_ne_true), if_neg (by exact Bool.false_ne_true),
    if_pos (startsWith_append _ _)]

/-- The line of a flag is told from the list of flags by the digit that comes first. -/
theorem line_flag {f : ModuleFlag} (h : '\n' ∉ f.key.toList) (number : Nat) :
    line ⟨m, none⟩ (flagLine f number).toList =
      (whole moduleFlag (flagLine f number).toList >>= fun f =>
        pure ⟨{ m with flags := m.flags ++ [f] }, none⟩) := by
  obtain ⟨c, tail, hc, htail⟩ : ∃ c tail, c.isDigit = true ∧
      (flagLine f number).toList = "!".toList ++ (c :: tail) := by
    obtain ⟨tail, htail⟩ : ∃ tail,
        (flagLine f number).toList = "!".toList ++ ((Numeral.ofNat number).toList ++ tail) := by
      rw [flagLine]
      exact ⟨_, by simp; rfl⟩
    cases hdigits : Nat.toDigits 10 number with
    | nil => exact absurd hdigits Nat.toDigits_ne_nil
    | cons c ds =>
      have hc := isDigit_of_mem_toDigits (n := number) c (by simp [hdigits])
      have htext : (Numeral.ofNat number).toList = c :: ds := by
        rw [Numeral.ofNat, String.toList_ofList, hdigits]
      refine ⟨c, ds ++ tail, hc, ?_⟩
      rw [htail, htext]
      rfl
  have hlist : startsWith ("!".toList ++ (c :: tail)) "!llvm.module.flags" ≠ true := by
    have hne : c ≠ 'l' := by
      rintro rfl
      exact absurd hc (by decide)
    show ¬(List.isPrefixOf ('!' :: 'l' :: "lvm.module.flags".toList) ('!' :: c :: tail) = true)
    simp [List.isPrefixOf_cons_cons, hne.symm]
  rw [line_module (solid_flagLine h number) htail ⟨'!', rfl, by decide⟩]
  rw [moduleLine, if_neg (by exact Bool.false_ne_true), if_neg (by exact Bool.false_ne_true),
    if_neg (by exact Bool.false_ne_true), if_neg (by exact Bool.false_ne_true), if_neg hlist,
    if_pos (startsWith_append _ _), ← htail]

theorem leads_flag {f : ModuleFlag} {number : Nat} (hnumber : number < 2 ^ 32)
    (h : Quotable f.key) :
    Leads ⟨m, none⟩ [flagLine f number] ⟨{ m with flags := m.flags ++ [f] }, none⟩ := by
  refine .one (solid_flagLine h.2 number).ends ?_
  rw [line_flag h.2, whole_eq_ok_iff.mpr (moduleFlag_line hnumber h.1)]
  rfl

/-! ## Lines of functions

The module that is printed is not yet the one that has been read. -/

variable {p : Module} {f : Function}

theorem leads_body {l : String} {line : List Char} (hends : Ends l.toList)
    (htrim : trimmed l.toList = line) (hline : line ≠ []) (hhead : line.head? ≠ some ';')
    {d : Draft} (h : bodyLine m f line = .ok d) : Leads ⟨m, some f⟩ [l] d :=
  .one hends ((line_of_trimmed htrim hline hhead ⟨m, some f⟩).trans h)

theorem leads_label {label : String} (h : IsName label) :
    Leads ⟨m, some f⟩ [label ++ ":"]
      ⟨m, some { f with blocks := f.blocks ++ [⟨label, []⟩] }⟩ := by
  have hsolid := solid_label h
  have hline : (label ++ ":").toList = label.toList ++ [':'] := String.toList_append
  have hne : label.toList ≠ [] := by simpa using h.1
  have hhead : (label ++ ":").toList.head? ≠ some ';' := by
    rw [hline, List.head?_append, List.head?_eq_some_head hne]
    intro heq
    exact absurd (h.2 ';' (Option.some.inj heq ▸ List.head_mem hne)) (by decide)
  have hclose : label.toList ++ [':'] ≠ ['\x7d'] := by
    intro heq
    have hlast := congrArg List.getLast? heq
    rw [List.getLast?_concat] at hlast
    cases hlast
  have hname : whole name label.toList = .ok label := by
    have hread := name_append h (stops_nil isNameCharacter)
    rw [List.append_nil] at hread
    exact whole_eq_ok_iff.mpr hread
  refine leads_body hsolid.ends hsolid.trimmed hsolid.ne_nil hhead ?_
  rw [bodyLine, hline, if_neg hclose, if_pos (List.getLast?_concat ..), List.dropLast_concat,
    hname]
  rfl

theorem instruction_line {i : Instruction} (hi : ∀ callee ∈ i.callee?, IsName callee)
    (hargs : ∀ o ∈ i.args, o.Legible) :
    instruction (instructionText p i).toList = .ok (i, []) := by
  cases i with
  | ret =>
    rw [instructionText_ret]
    rfl
  | call callee args => exact instruction_call (hi callee rfl) hargs

/-- An instruction does not begin or end like anything else in a body. -/
theorem instructionText_ends (p : Module) (i : Instruction) :
    (∃ c ∈ (instructionText p i).toList.head?, c ≠ ';' ∧ c ≠ '\x7d') ∧
      (instructionText p i).toList.getLast? ≠ some ':' := by
  cases i with
  | ret =>
    rw [instructionText_ret]
    exact ⟨⟨'r', rfl, by decide⟩, by decide⟩
  | call callee args =>
    refine ⟨⟨'c', by simp [instructionText], by decide⟩, ?_⟩
    have hlast : ')' ∈ (instructionText p (.call callee args)).toList.getLast? :=
      getLast?_append (getLast?_append rfl)
    rw [Option.mem_def.mp hlast]
    decide

theorem leads_instruction {blocks : List Block} {b : Block} {i : Instruction}
    (hi : ∀ callee ∈ i.callee?, IsName callee) (hargs : ∀ o ∈ i.args, o.Legible) :
    Leads ⟨m, some { f with blocks := blocks ++ [b] }⟩ [instructionLine p i]
      ⟨m, some { f with blocks := blocks ++ [appendTo b i] }⟩ := by
  have hsolid := solid_instructionText p hi
  have hline : (instructionLine p i).toList = ' ' :: ' ' :: (instructionText p i).toList := by
    rw [instructionLine_eq, String.toList_append]
    rfl
  have hends : Ends (instructionLine p i).toList := by
    rw [hline]
    exact (hsolid.ends.cons (by decide) hsolid.ne_nil).cons (by decide) (List.cons_ne_nil _ _)
  have htrim : trimmed (instructionLine p i).toList = (instructionText p i).toList := by
    rw [hline, trimmed_cons (by decide), trimmed_cons (by decide), hsolid.trimmed]
  obtain ⟨⟨c, hc, hsemicolon, hbrace⟩, hlast⟩ := instructionText_ends p i
  obtain hc : (instructionText p i).toList.head? = some c := hc
  have hhead : (instructionText p i).toList.head? ≠ some ';' := by
    rw [hc]
    exact fun heq => hsemicolon (Option.some.inj heq)
  have hclose : (instructionText p i).toList ≠ ['\x7d'] := by
    intro heq
    rw [heq] at hc
    exact hbrace (Option.some.inj hc).symm
  have happended : appended { f with blocks := blocks ++ [b] } i =
      .ok { f with blocks := blocks ++ [appendTo b i] } := by
    rw [appended, List.getLast?_concat]
    dsimp only
    rw [List.dropLast_concat]
  refine leads_body hends htrim hsolid.ne_nil hhead ?_
  rw [bodyLine, if_neg hclose, if_neg hlast, whole_eq_ok_iff.mpr (instruction_line hi hargs)]
  show (appended _ i >>= fun f' => (.ok ⟨m, some f'⟩ : Except Issue Draft)) = _
  rw [happended]
  rfl

theorem leads_close : Leads ⟨m, some f⟩ ["\x7d"]
    ⟨{ m with functions := m.functions ++ [f] }, none⟩ :=
  .one ⟨by decide, by decide⟩ rfl

/-! ## Functions -/

theorem leads_block {b : Block} (hlabel : IsName b.label)
    (hcallees : ∀ i ∈ b.instructions, ∀ callee ∈ i.callee?, IsName callee)
    (hlegible : b.Legible) (blocks : List Block) :
    Leads ⟨m, some { f with blocks := blocks }⟩ (blockLines p b)
      ⟨m, some { f with blocks := blocks ++ [b] }⟩ := by
  refine Leads.cons (leads_label hlabel) ?_
  rw [List.map_eq_flatMap]
  refine Leads.flatMap
    (fun done => ⟨m, some { f with blocks := blocks ++ [⟨b.label, done⟩] }⟩) ?_ []
  exact fun i hi done => leads_instruction (hcallees i hi) (hlegible i hi)

theorem leads_blocks {bs : List Block} (hlabels : ∀ b ∈ bs, IsName b.label)
    (hcallees : ∀ b ∈ bs, ∀ i ∈ b.instructions, ∀ callee ∈ i.callee?, IsName callee)
    (hlegible : ∀ b ∈ bs, b.Legible) (blocks : List Block) :
    Leads ⟨m, some { f with blocks := blocks }⟩ (bodyLines p bs)
      ⟨m, some { f with blocks := blocks ++ bs }⟩ := by
  induction bs generalizing blocks with
  | nil =>
    rw [List.append_nil]
    exact leads_empty _
  | cons b bs ih =>
    have hfirst : Leads ⟨m, some { f with blocks := blocks }⟩ (blockLines p b)
        ⟨m, some { f with blocks := blocks ++ [b] }⟩ :=
      leads_block (hlabels b List.mem_cons_self) (hcallees b List.mem_cons_self)
        (hlegible b List.mem_cons_self) blocks
    cases bs with
    | nil => exact hfirst
    | cons c bs =>
      have hrest := ih (fun d hd => hlabels d (List.mem_cons_of_mem b hd))
        (fun d hd => hcallees d (List.mem_cons_of_mem b hd))
        (fun d hd => hlegible d (List.mem_cons_of_mem b hd)) (blocks ++ [b])
      rw [List.append_assoc, List.singleton_append] at hrest
      exact hfirst.trans (.cons (leads_empty _) hrest)

theorem leads_function (hf : f.Spellable) (hlegible : ∀ b ∈ f.blocks, b.Legible) :
    Leads ⟨m, none⟩ ("" :: functionLines p f)
      ⟨{ m with functions := m.functions ++ [f] }, none⟩ := by
  have hbody : Leads ⟨m, some { f with blocks := [] }⟩ (bodyLines p f.blocks) ⟨m, some f⟩ :=
    leads_blocks hf.labels hf.callees hlegible []
  exact .cons (leads_empty _) (.cons (leads_header hf.name) (hbody.trans leads_close))

/-! ## Modules -/

/-- Flags are added in the order of their numbers. -/
theorem leads_flags {flags : List ModuleFlag} (h : ∀ f ∈ flags, Quotable f.key) (number : Nat)
    (hcount : number + flags.length ≤ 2 ^ 32) (done : List ModuleFlag) :
    Leads ⟨{ m with flags := done }, none⟩
      (flags.mapIdx fun i f => flagLine f (number + i))
      ⟨{ m with flags := done ++ flags }, none⟩ := by
  induction flags generalizing number done with
  | nil =>
    rw [List.append_nil]
    exact .refl _
  | cons f flags ih =>
    rw [List.length_cons] at hcount
    have hrest := ih (fun g hg => h g (List.mem_cons_of_mem f hg)) (number + 1)
      (by omega) (done ++ [f])
    rw [List.append_assoc, List.singleton_append] at hrest
    rw [List.mapIdx_cons]
    refine .cons (leads_flag (by omega) (h f List.mem_cons_self)) ?_
    have hshift : (fun (i : Nat) f => flagLine f (number + (i + 1))) =
        fun i f => flagLine f (number + 1 + i) := by
      funext i f
      rw [Nat.add_assoc, Nat.add_comm 1 i]
    rw [hshift]
    exact hrest

/-- The lines of a module ahead of its flags. -/
def frontLines (m : Module) : List String :=
  ["; ModuleID = '" ++ m.sourceName ++ "'", "source_filename = " ++ quotedText m.sourceName] ++
    m.declarations.flatMap (fun d => ["", declarationLine d]) ++
    m.functions.flatMap (fun f => "" :: functionLines m f) ++
    (if m.attributeGroups.isEmpty then [] else "" :: m.attributeGroups.map groupLine)

theorem leads_frontLines (h : m.Spellable)
    (hlegible : ∀ f ∈ m.functions, ∀ b ∈ f.blocks, b.Legible) :
    empty.Leads (frontLines m) ⟨{ m with flags := [] }, none⟩ := by
  have hsource : empty.Leads
      ["; ModuleID = '" ++ m.sourceName ++ "'", "source_filename = " ++ quotedText m.sourceName]
      ⟨⟨m.sourceName, [], [], [], []⟩, none⟩ :=
    .cons (leads_comment h.sourceName.2 empty) (leads_sourceName h.sourceName)
  have hdeclarations : Leads ⟨⟨m.sourceName, [], [], [], []⟩, none⟩
      (m.declarations.flatMap fun d => ["", declarationLine d])
      ⟨⟨m.sourceName, m.declarations, [], [], []⟩, none⟩ :=
    Leads.flatMap (fun done => ⟨⟨m.sourceName, done, [], [], []⟩, none⟩)
      (fun d hd _ => .cons (leads_empty _) (leads_declaration (h.declarations d hd))) []
  have hfunctions : Leads ⟨⟨m.sourceName, m.declarations, [], [], []⟩, none⟩
      (m.functions.flatMap fun f => "" :: functionLines m f)
      ⟨⟨m.sourceName, m.declarations, m.functions, [], []⟩, none⟩ :=
    Leads.flatMap (fun done => ⟨⟨m.sourceName, m.declarations, done, [], []⟩, none⟩)
      (fun f hf _ => leads_function (h.functions f hf) (hlegible f hf)) []
  have hgroups : Leads ⟨⟨m.sourceName, m.declarations, m.functions, [], []⟩, none⟩
      (if m.attributeGroups.isEmpty then [] else "" :: m.attributeGroups.map groupLine)
      ⟨⟨m.sourceName, m.declarations, m.functions, m.attributeGroups, []⟩, none⟩ := by
    have hall : Leads ⟨⟨m.sourceName, m.declarations, m.functions, [], []⟩, none⟩
        (m.attributeGroups.flatMap fun g => [groupLine g])
        ⟨⟨m.sourceName, m.declarations, m.functions, m.attributeGroups, []⟩, none⟩ :=
      Leads.flatMap (fun done =>
          ⟨⟨m.sourceName, m.declarations, m.functions, done, []⟩, none⟩)
        (fun g hg _ => leads_attributeGroup (h.attributes g hg)) []
    rw [← List.map_eq_flatMap] at hall
    split
    · rename_i hempty
      rw [List.isEmpty_iff.mp hempty] at hall ⊢
      exact hall
    · exact .cons (leads_empty _) hall
  exact ((hsource.trans hdeclarations).trans hfunctions).trans hgroups

theorem leads_lines (hcount : m.flags.length ≤ 2 ^ 32) (h : m.Spellable)
    (hlegible : ∀ f ∈ m.functions, ∀ b ∈ f.blocks, b.Legible) :
    empty.Leads (moduleLines m) ⟨m, none⟩ := by
  have hflags : Leads ⟨{ m with flags := [] }, none⟩
      (if m.flags.isEmpty then []
        else "" :: flagListLine m.flags.length :: "" :: m.flags.mapIdx fun i f => flagLine f i)
      ⟨m, none⟩ := by
    have hall := leads_flags (m := m) h.flags 0 (by omega) []
    simp only [Nat.zero_add, List.nil_append] at hall
    split
    · rename_i hempty
      have hnone : (m.flags.mapIdx fun i f => flagLine f i) = [] := by
        rw [List.isEmpty_iff.mp hempty]
        rfl
      rw [hnone] at hall
      exact hall
    · exact .cons (leads_empty _) (.cons (leads_flagList _) (.cons (leads_empty _) hall))
  exact (leads_frontLines h hlegible).trans hflags

end Draft

/-- The instructions of some blocks have no NaN among their operands. -/
def Draft.HasNumbers (bs : List Block) : Prop :=
  ∀ b ∈ bs, ∀ i ∈ b.instructions, ∀ o ∈ i.args, o.IsNumber

theorem parse_print_of_legible {m : Module} (hcount : m.flags.length ≤ 2 ^ 32)
    (hlegible : ∀ f ∈ m.functions, ∀ b ∈ f.blocks, b.Legible) (h : m.Spellable) :
    parse (print m) = .ok m := by
  have hleads := Draft.leads_lines hcount h hlegible
  have hlines := hleads.lines 1 []
  rw [List.append_nil] at hlines
  unfold parse
  rw [print, linesOf_unlines hleads.ends]
  dsimp only
  rw [hlines]
  rfl

theorem parse_print {m : Module} (hcount : m.flags.length ≤ 2 ^ 32)
    (hnumbers : ∀ f ∈ m.functions, Draft.HasNumbers f.blocks) (h : m.Spellable) :
    parse (print m) = .ok m := by
  refine parse_print_of_legible hcount (fun f hf b hb i hi o ho => ?_) h
  exact (hnumbers f hf b hb i hi o ho).legible

/-- A module with no NaN among its operands and not too many flags to number is read back from
its text, and is the module that is read, exactly if it is spellable. -/
theorem parse_print_iff {m : Module} (hcount : m.flags.length ≤ 2 ^ 32)
    (hnumbers : ∀ i ∈ m.instructions, ∀ o ∈ i.args, o.IsNumber) :
    parse (print m) = .ok m ↔ m.Spellable := by
  refine ⟨spellable_of_parse, parse_print hcount fun f hf b hb i hi => ?_⟩
  exact hnumbers i (List.mem_flatMap.mpr ⟨f, hf, List.mem_flatMap.mpr ⟨b, hb, hi⟩⟩)

/-- A module that is no program: nothing it calls is declared, no group it refers to is there,
and its functions have no blocks or blocks without an end. -/
def fragments : Module where
  sourceName := "a \\ ; \r b"
  declarations := [⟨"$", [], some .double, some 0xffffffff⟩]
  functions := [⟨"main", none, none, []⟩, ⟨"main", some .i64, some 7,
    [⟨"1.", []⟩, ⟨"1.", [.ret, .call "_g" [.int Int64.minValue, .pointer 0xffffffffffffffff,
      .double ⟨1⟩, .double (Double.infinity true), .null], .call "$" []]⟩]⟩]
  attributeGroups := [⟨3, []⟩, ⟨3, [.keyValue "" "=", .flag " \x7d"]⟩]
  flags := [⟨0xffffffff, "\x7d", .i32 Int32.minValue⟩, ⟨1, "", .bool true⟩]

theorem parse_print_fragments : parse (print fragments) = .ok fragments :=
  (parse_print_iff (by decide) (by decide +kernel)).mpr (by decide +kernel)

end CircuitQir.Assembly
