import CircuitQir.Proofs.Bitcode.Sizes
import CircuitQir.Proofs.Bitcode.Steps
/-!
# How the reader fills blocks

A body may say more than once how many blocks there are. The blocks are then empty again, but the
instructions that follow go on with the block the last one went to, so the blocks before it stay
empty for good (`Filling`). The bitcode of such a function does not show which blocks these were:
it is that of the function with the instructions moved up to the front (`Function.refilled`).
-/

namespace CircuitQir.Ir

/-! ## Moving instructions up -/

/-- The instructions of blocks, where leading blocks without any are put behind the others. -/
def movedUp (parts : List (List Instruction)) : List (List Instruction) :=
  parts.dropWhile List.isEmpty ++ parts.takeWhile List.isEmpty

section MovedUp

variable {parts : List (List Instruction)}

theorem eq_nil_of_mem_takeWhile {is : List Instruction} (h : is ∈ parts.takeWhile List.isEmpty) :
    is = [] :=
  List.isEmpty_iff.mp (List.all_eq_true.mp List.all_takeWhile is h)

theorem length_movedUp (parts : List (List Instruction)) :
    (movedUp parts).length = parts.length := by
  conv_rhs => rw [← List.takeWhile_append_dropWhile (p := List.isEmpty) (l := parts)]
  rw [movedUp, List.length_append, List.length_append, Nat.add_comm]

theorem flatten_movedUp (parts : List (List Instruction)) :
    (movedUp parts).flatten = parts.flatten := by
  have hnone : (parts.takeWhile List.isEmpty).flatten = [] :=
    List.flatten_eq_nil_iff.mpr fun _ => eq_nil_of_mem_takeWhile
  conv_rhs => rw [← List.takeWhile_append_dropWhile (p := List.isEmpty) (l := parts)]
  rw [movedUp, List.flatten_append, List.flatten_append, hnone, List.append_nil, List.nil_append]

/-- Nothing moves if the first block is not empty, or if all are. -/
theorem movedUp_eq_self_iff :
    movedUp parts = parts ↔ (∀ is ∈ parts, is = []) ∨ ∀ is ∈ parts.head?, is ≠ [] := by
  have hsplit := List.takeWhile_append_dropWhile (p := List.isEmpty) (l := parts)
  have hempty : ∀ is ∈ parts.takeWhile List.isEmpty, is = [] := fun _ => eq_nil_of_mem_takeWhile
  have hhead := List.head?_dropWhile_not List.isEmpty parts
  rw [movedUp]
  generalize parts.takeWhile List.isEmpty = empty at hsplit hempty
  generalize parts.dropWhile List.isEmpty = rest at hsplit hhead
  subst hsplit
  cases rest with
  | nil => simpa using .inl hempty
  | cons is rest =>
    have hne : is ≠ [] := by simpa using hhead
    cases empty with
    | nil => simpa using .inr hne
    | cons js empty =>
      obtain rfl : js = [] := hempty js List.mem_cons_self
      refine iff_of_false (fun heq => hne (List.cons.inj heq).1) ?_
      rintro (hall | hfirst)
      · exact hne (hall is (by simp))
      · exact hfirst [] rfl rfl

end MovedUp

/-- The function with its instructions moved up. The blocks keep their labels. -/
def Function.refilled (f : Function) : Function :=
  { f with
    blocks := ((f.blocks.map (·.label)).zip (movedUp (f.blocks.map (·.instructions)))).map
      fun p => ⟨p.1, p.2⟩ }

/-- The module with the instructions of all functions moved up. -/
def Module.refilled (m : Module) : Module := { m with functions := m.functions.map (·.refilled) }

/-- The first block is not empty, unless all blocks are. -/
def Function.StartsFilled (f : Function) : Prop :=
  (∀ b ∈ f.blocks, b.instructions = []) ∨ ∀ b ∈ f.blocks.head?, b.instructions ≠ []

namespace Function

theorem labels_refilled (f : Function) :
    f.refilled.blocks.map (·.label) = f.blocks.map (·.label) := by
  rw [refilled, List.map_map]
  exact List.map_fst_zip (by simp [length_movedUp])

theorem parts_refilled (f : Function) : f.refilled.blocks.map (·.instructions) =
    movedUp (f.blocks.map (·.instructions)) := by
  rw [refilled, List.map_map]
  exact List.map_snd_zip (by simp [length_movedUp])

theorem instructions_refilled (f : Function) : f.refilled.blocks.flatMap (·.instructions) =
    f.blocks.flatMap (·.instructions) := by
  rw [List.flatMap_def, parts_refilled, flatten_movedUp, List.flatMap_def]

theorem refilled_eq_self_iff (f : Function) : f.refilled = f ↔ f.StartsFilled := by
  have hparts : f.refilled = f ↔
      movedUp (f.blocks.map (·.instructions)) = f.blocks.map (·.instructions) := by
    constructor
    · intro heq
      rw [← parts_refilled, heq]
    · intro heq
      have hblocks : ((f.blocks.map (·.label)).zip (f.blocks.map (·.instructions))).map
          (fun p => Block.mk p.1 p.2) = f.blocks := by
        rw [List.zip_map', List.map_map]
        exact List.map_id f.blocks
      rw [refilled, heq, hblocks]
  rw [hparts, movedUp_eq_self_iff, StartsFilled]
  simp

end Function

theorem Module.refilled_eq_self_iff (m : Module) :
    m.refilled = m ↔ ∀ f ∈ m.functions, f.StartsFilled := by
  have hfunctions : m.refilled = m ↔ m.functions.map (·.refilled) = m.functions.map id := by
    rw [List.map_id]
    exact ⟨congrArg Module.functions, fun heq => by rw [refilled, heq]⟩
  rw [hfunctions, List.map_inj_left]
  exact forall₂_congr fun f _ => f.refilled_eq_self_iff

end CircuitQir.Ir

namespace CircuitQir.Bitcode

open Ir Bitstream

/-! ## The bitcode of a refilled module -/

theorem labelItems_congr : ∀ {bs cs : List Ir.Block} (index : Nat),
    bs.map (·.label) = cs.map (·.label) → labelItems index bs = labelItems index cs
  | [], [], _, _ => rfl
  | b :: bs, c :: cs, index, h => by
    obtain ⟨hlabel, h⟩ := List.cons.inj h
    have hlabel : b.label = c.label := hlabel
    rw [labelItems, labelItems, hlabel, labelItems_congr (index + 1) h]

theorem length_refilled (f : Function) : f.refilled.blocks.length = f.blocks.length := by
  have hlabels := congrArg List.length f.labels_refilled
  rwa [List.length_map, List.length_map] at hlabels

theorem bodyItem_refilled (l : Layout) (f : Function) : bodyItem l f.refilled = bodyItem l f := by
  rw [bodyItem, bodyItem, labelItems_congr 0 f.labels_refilled, f.instructions_refilled,
    length_refilled]

theorem instructions_refilled (m : Module) : m.refilled.instructions = m.instructions := by
  rw [Module.instructions, Module.refilled, List.flatMap_map]
  exact List.flatMap_congr fun f _ => f.instructions_refilled

theorem all_refilled (m : Module) : Callable.all m.refilled = Callable.all m := by
  rw [Callable.all, Module.refilled, List.map_map]
  rfl

theorem ofModule_refilled (m : Module) : Layout.ofModule m.refilled = .ofModule m := by
  simp only [Layout.ofModule, all_refilled, instructions_refilled]
  rfl

/-- Which blocks were left empty cannot be seen from the bitcode. -/
theorem encode_refilled (m : Module) : encode m.refilled = encode m := by
  have hbodies : m.refilled.functions.map (bodyItem (.ofModule m)) =
      m.functions.map (bodyItem (.ofModule m)) := by
    rw [Module.refilled, List.map_map]
    exact List.map_congr_left fun f _ => bodyItem_refilled _ f
  have hmodule : moduleItem (.ofModule m) m.refilled = moduleItem (.ofModule m) m := by
    rw [moduleItem, moduleItem, hbodies]
    rfl
  rw [encode, encode, items, items, ofModule_refilled, hmodule]

theorem blocksFit_refilled (m : Module) : m.refilled.BlocksFit ↔ m.BlocksFit := by
  have hone (f : Function) : f.refilled.BlocksFit ↔ f.BlocksFit := by
    have hlabels (f : Function) : f.blocks.any (!·.label.isEmpty) =
        (f.blocks.map (·.label)).any (!·.isEmpty) := by
      rw [List.any_map]
      rfl
    rw [Function.BlocksFit, Function.BlocksFit, hlabels, hlabels, f.labels_refilled,
      f.instructions_refilled, length_refilled]
  rw [Module.BlocksFit, Module.refilled, List.forall_mem_map]
  exact forall₂_congr fun f _ => hone f

theorem callsFit_refilled (m : Module) : m.refilled.CallsFit ↔ m.CallsFit := by
  have hone : ∀ i, m.refilled.Fits i ↔ m.Fits i
    | .ret => Iff.rfl
    | .call callee args => by
      rw [Module.Fits, Module.Fits, Callable.arity?_eq, Callable.arity?_eq, all_refilled]
  rw [Module.CallsFit, instructions_refilled]
  exact forall₂_congr fun i _ => hone i

/-! ## How blocks are filled -/

/-- The block has been ended by a return. -/
def Closed (b : Ir.Block) : Prop :=
  .ret ∉ b.instructions.dropLast ∧ b.instructions.getLast? = some .ret

/-- How the blocks of a body look while it is read, when instructions go to the block with a
number: some blocks have been skipped, and those behind them are filled one after the other. -/
inductive Filling (bs : List Ir.Block) (current : Nat) : Prop
  /-- There is a block for the next instruction. -/
  | more (skipped closed : List Ir.Block) (b : Ir.Block) (rest : List Ir.Block)
    (hblocks : bs = skipped ++ closed ++ b :: rest)
    (hcurrent : current = (skipped ++ closed).length)
    (hskipped : ∀ c ∈ skipped, c.instructions = []) (hclosed : ∀ c ∈ closed, Closed c)
    (hopen : .ret ∉ b.instructions) (hrest : ∀ c ∈ rest, c.instructions = [])
  /-- There is none. -/
  | full (skipped closed : List Ir.Block) (hblocks : bs = skipped ++ closed)
    (hcurrent : bs.length ≤ current)
    (hskipped : ∀ c ∈ skipped, c.instructions = []) (hclosed : ∀ c ∈ closed, Closed c)

/-- Of blank blocks, those before the current one are skipped. -/
theorem Filling.blank {bs : List Ir.Block} (h : ∀ b ∈ bs, b.instructions = []) (current : Nat) :
    Filling bs current := by
  by_cases hlt : current < bs.length
  · refine .more (bs.take current) [] bs[current] (bs.drop (current + 1)) ?_ ?_
      (fun c hc => h c (List.mem_of_mem_take hc)) nofun ?_
      (fun c hc => h c (List.mem_of_mem_drop hc))
    · rw [List.append_nil, ← List.drop_eq_getElem_cons hlt, List.take_append_drop]
    · rw [List.append_nil, List.length_take, Nat.min_eq_left (Nat.le_of_lt hlt)]
    · rw [h _ (List.getElem_mem hlt)]
      exact List.not_mem_nil
  · exact .full bs [] (List.append_nil bs).symm (Nat.not_lt.mp hlt) h nofun

theorem closed_append_ret {label : String} {is : List Instruction} (h : .ret ∉ is) :
    Closed ⟨label, is ++ [.ret]⟩ :=
  ⟨by rwa [List.dropLast_concat], List.getLast?_concat⟩

/-- Adding an instruction. -/
theorem Filling.append {b b' : Body} {i : Instruction} (h : Filling b.blocks b.current)
    (hb : b.append i = .ok b') : Filling b'.blocks b'.current := by
  obtain ⟨values, blocks, current⟩ := b
  cases h with
  | more skipped closed c rest hblocks hcurrent hskipped hclosed hopen hrest =>
    obtain ⟨label, front⟩ := c
    dsimp only at hblocks hcurrent
    subst hblocks hcurrent
    rw [Body.append_eq] at hb
    obtain rfl := Except.ok.inj hb
    cases i with
    | call callee args =>
      refine .more skipped closed ⟨label, front ++ [.call callee args]⟩ rest rfl rfl hskipped
        hclosed ?_ hrest
      simpa using hopen
    | ret =>
      have hclosed' : ∀ c ∈ closed ++ [⟨label, front ++ [.ret]⟩], Closed c := by
        simpa [or_imp, forall_and] using ⟨hclosed, closed_append_ret hopen⟩
      cases rest with
      | nil =>
        refine .full skipped (closed ++ [⟨label, front ++ [.ret]⟩]) (List.append_assoc ..) ?_
          hskipped hclosed'
        simp [Instruction.isTerminator, Nat.add_assoc]
      | cons c rest =>
        obtain ⟨hc, hrest⟩ := List.forall_mem_cons.mp hrest
        refine .more skipped (closed ++ [⟨label, front ++ [.ret]⟩]) c rest ?_ ?_ hskipped hclosed'
          ?_ hrest
        · simp
        · simp [Instruction.isTerminator, Nat.add_assoc]
        · rw [hc]
          exact List.not_mem_nil
  | full skipped closed hblocks hcurrent hskipped hclosed =>
    rw [Body.append, if_neg (Nat.not_lt.mpr hcurrent)] at hb
    cases hb

/-- Reading an entry. -/
theorem Filling.read {t : Tables} {labels : List (Nat × String)} {size : Nat} {b b' : Body}
    {e : Entry} (h : Filling b.blocks b.current) (hb : b.read t labels size e = .ok b') :
    Filling b'.blocks b'.current := by
  cases Body.takes_of_read hb with
  | nothing | constants => exact h
  | blocks count label => exact .blank (by simp) _
  | ret hb => exact h.append hb
  | call f args yields hf hb =>
    refine Filling.append ?_ hb
    exact h

/-! ## What comes of it -/

theorem Closed.filled_append {rest : List Ir.Block} (hrest : Filled (rest.map (·.instructions))) :
    ∀ {closed : List Ir.Block}, (∀ c ∈ closed, Closed c) →
      Filled ((closed ++ rest).map (·.instructions))
  | [], _ => hrest
  | c :: closed, h => by
    obtain ⟨hc, h⟩ := List.forall_mem_cons.mp h
    exact ⟨hc.1, (if_pos hc.2).mpr (filled_append hrest h)⟩

theorem filled_append_empty {empty : List (List Instruction)} (hempty : ∀ is ∈ empty, is = []) :
    ∀ {parts : List (List Instruction)}, Filled parts → Filled (parts ++ empty)
  | [], _ => filled_of_empty hempty
  | is :: parts, ⟨hret, hrest⟩ => by
    refine ⟨hret, ?_⟩
    split at hrest
    · rename_i hends
      exact (if_pos hends).mpr (filled_append_empty hempty hrest)
    · rename_i hends
      exact (if_neg hends).mpr (List.forall_mem_append.mpr ⟨hrest, hempty⟩)

theorem filled_dropWhile : ∀ {parts : List (List Instruction)}, Filled parts →
    Filled (parts.dropWhile List.isEmpty)
  | [], _ => trivial
  | [] :: parts, ⟨_, hrest⟩ => by
    have hall : ∀ is ∈ parts, is = [] := hrest
    refine filled_of_empty fun is his => hall is ?_
    exact (List.dropWhile_suffix _).subset his
  | (_ :: _) :: _, h => h

/-- Once moved up, the instructions lie as if no block had been skipped. -/
theorem filled_movedUp {skipped parts : List (List Instruction)}
    (hskipped : ∀ is ∈ skipped, is = []) (hparts : Filled parts) :
    Filled (movedUp (skipped ++ parts)) := by
  have hdrop : (skipped ++ parts).dropWhile List.isEmpty = parts.dropWhile List.isEmpty :=
    List.dropWhile_append_of_pos fun is his => List.isEmpty_iff.mpr (hskipped is his)
  rw [movedUp, hdrop]
  exact filled_append_empty (fun _ => eq_nil_of_mem_takeWhile) (filled_dropWhile hparts)

theorem Filling.filled {bs : List Ir.Block} {current : Nat} (h : Filling bs current) :
    Filled (movedUp (bs.map (·.instructions))) := by
  cases h with
  | more skipped closed b rest hblocks hcurrent hskipped hclosed hopen hrest =>
    rw [hblocks, List.append_assoc, List.map_append]
    refine filled_movedUp (List.forall_mem_map.mpr hskipped) (Closed.filled_append ?_ hclosed)
    refine ⟨fun hmem => hopen ((List.dropLast_sublist _).subset hmem), ?_⟩
    rw [if_neg fun hlast => hopen (List.mem_of_getLast? hlast)]
    exact List.forall_mem_map.mpr hrest
  | full skipped closed hblocks hcurrent hskipped hclosed =>
    have hnil : Filled (([] : List Ir.Block).map (·.instructions)) := trivial
    rw [hblocks, ← List.append_nil closed, List.map_append]
    exact filled_movedUp (List.forall_mem_map.mpr hskipped) (Closed.filled_append hnil hclosed)

end CircuitQir.Bitcode
