import CircuitQir.Lowering.Program
import CircuitQir.Proofs.Lists
import CircuitQir.Proofs.Lowering.Catalog
/-!
# What a program under construction is like

A program starts with the call that initializes the runtime, and from then on nothing happens to
it but further calls of intrinsics (`EntryBlock.Built`). So what every call preserves holds of all
programs that are ever finished. Each intrinsic is declared when it is first called, and the map of
names goes along with the declarations (`EntryBlock.Declares`). That rests on the names in the
catalog being different, since a declaration is looked for by name. And each is called with
arguments of the types declared (`EntryBlock.Sound`).
-/

namespace CircuitQir

open Ir

namespace Places

variable {ps : Places} {name : String}

theorem contains_iff : ps.contains name = true ↔ ∃ n, ps.lookup name = some n :=
  Option.isSome_iff_exists

theorem lookup_filter (ps : Places) {name name' : String} (h : name' ≠ name) :
    List.lookup name' (ps.filter (·.1 ≠ name)) = ps.lookup name' := by
  induction ps with
  | nil => rfl
  | cons p ps ih =>
    obtain ⟨key, place⟩ := p
    by_cases hkey : key = name
    · subst hkey
      rw [List.filter_cons_of_neg (by simp), ih, List.lookup_cons, beq_false_of_ne h]
    · rw [List.filter_cons_of_pos (by simpa using hkey), List.lookup_cons, List.lookup_cons, ih]

theorem lookup_insert (ps : Places) (name name' : String) (place : Nat) :
    (ps.insert name place).lookup name' =
      if name' = name then some place else ps.lookup name' := by
  rw [insert, List.lookup_cons]
  split_ifs with h
  · rw [beq_iff_eq.mpr h]
  · rw [beq_false_of_ne h]
    exact lookup_filter ps h

end Places

namespace EntryBlock

variable {name : String} {b : EntryBlock} {is : List Intrinsic} {i : Intrinsic}
  {args : List Operand}

/-! ## Declarations -/

/-- Some intrinsics are the only ones declared, each where it is first named, and the map has the
name of each declaration with its place and nothing else. -/
structure Declares (b : EntryBlock) (is : List Intrinsic) : Prop where
  listed : ∀ i ∈ is, i ∈ Intrinsic.catalog
  declarations : b.declarations = is.eraseDups.map Intrinsic.declaration
  declared : ∀ name n, b.declared.lookup name = some n ↔
    (b.declarations.map Declaration.name)[n]? = some name

theorem Declares.mem_iff (h : b.Declares is) {d : Declaration} :
    d ∈ b.declarations ↔ ∃ i ∈ is, d = i.declaration := by
  rw [h.declarations, List.mem_map]
  constructor
  · rintro ⟨i, hi, rfl⟩
    exact ⟨i, List.mem_eraseDups.mp hi, rfl⟩
  · rintro ⟨i, hi, rfl⟩
    exact ⟨i, List.mem_eraseDups.mpr hi, rfl⟩

theorem Declares.exists_eq (h : b.Declares is) :
    ∀ d ∈ b.declarations, ∃ i ∈ Intrinsic.catalog, d = i.declaration := by
  intro d hd
  obtain ⟨i, hi, rfl⟩ := h.mem_iff.mp hd
  exact ⟨i, h.listed i hi, rfl⟩

/-- Different intrinsics are declared under different names. -/
theorem Declares.nodup (h : b.Declares is) : (b.declarations.map Declaration.name).Nodup := by
  have hnames : b.declarations.map Declaration.name = is.eraseDups.map Intrinsic.name := by
    rw [h.declarations, List.map_map]
    rfl
  rw [hnames]
  refine List.Nodup.map_on ?_ (nodup_eraseDups is)
  intro i hi j hj hname
  have hi := h.listed i (List.mem_eraseDups.mp hi)
  have hj := h.listed j (List.mem_eraseDups.mp hj)
  exact Intrinsic.eq_of_name_eq hi hj hname

/-- A name is in the map exactly if something of that name is declared. -/
theorem Declares.contains_iff_mem (h : b.Declares is) {name : String} :
    b.declared.contains name = true ↔ name ∈ b.declarations.map Declaration.name := by
  rw [Places.contains_iff, List.mem_iff_getElem?]
  exact exists_congr (h.declared name)

/-- The name of an intrinsic is in the map exactly if that intrinsic is declared. -/
theorem Declares.contains_iff (h : b.Declares is) (hi : i ∈ Intrinsic.catalog) :
    b.declared.contains i.name = true ↔ i ∈ is := by
  rw [h.contains_iff_mem, List.mem_map]
  constructor
  · rintro ⟨d, hd, hname⟩
    obtain ⟨j, hj, rfl⟩ := h.mem_iff.mp hd
    rwa [← Intrinsic.eq_of_name_eq (h.listed j hj) hi hname]
  · intro hmem
    exact ⟨i.declaration, h.mem_iff.mpr ⟨i, hmem, rfl⟩, rfl⟩

/-- Where a map has the names of a list with their places, a new name gets the place behind the
others. -/
theorem lookup_insert_length {names : List String} {ps : Places}
    (h : ∀ name n, ps.lookup name = some n ↔ names[n]? = some name) {new : String}
    (hnew : new ∉ names) (name : String) (n : Nat) :
    (ps.insert new names.length).lookup name = some n ↔ (names ++ [new])[n]? = some name := by
  have hnone (n : Nat) : names[n]? ≠ some new := fun hn => hnew (List.mem_of_getElem? hn)
  rw [Places.lookup_insert]
  split_ifs with hname
  · subst hname
    rw [Option.some.injEq]
    rcases Nat.lt_trichotomy n names.length with hlt | rfl | hgt
    · rw [List.getElem?_append_left hlt]
      exact iff_of_false hlt.ne' (hnone n)
    · simp
    · rw [List.getElem?_eq_none (by simp; omega)]
      exact iff_of_false hgt.ne (Option.some_ne_none name).symm
  · rw [h]
    rcases Nat.lt_trichotomy n names.length with hlt | rfl | hgt
    · rw [List.getElem?_append_left hlt]
    · simpa using Ne.symm hname
    · rw [List.getElem?_eq_none hgt.le, List.getElem?_eq_none (by simp; omega)]

theorem Declares.call (h : b.Declares is) (hi : i ∈ Intrinsic.catalog) (args : List Operand) :
    (b.call i args).Declares (is ++ [i]) := by
  have hlisted : ∀ j ∈ is ++ [i], j ∈ Intrinsic.catalog :=
    List.forall_mem_append.mpr ⟨h.listed, List.forall_mem_singleton.mpr hi⟩
  by_cases hmem : i ∈ is
  · have hdeclare : b.declare i = b := if_pos ((h.contains_iff hi).mpr hmem)
    refine ⟨hlisted, ?_, ?_⟩
    · rw [eraseDups_concat, if_pos hmem, EntryBlock.call, hdeclare]
      exact h.declarations
    · rw [EntryBlock.call, hdeclare]
      exact h.declared
  · have hdeclare : b.declare i = { b with
        declared := b.declared.insert i.name b.declarations.length
        declarations := b.declarations ++ [i.declaration] } :=
      if_neg (mt (h.contains_iff hi).mp hmem)
    refine ⟨hlisted, ?_, ?_⟩
    · rw [eraseDups_concat, if_neg hmem, List.map_append, ← h.declarations, EntryBlock.call,
        hdeclare]
      rfl
    · have hnew : i.name ∉ b.declarations.map Declaration.name :=
        mt (h.contains_iff_mem.mpr) (mt (h.contains_iff hi).mp hmem)
      have hconcat := lookup_insert_length h.declared hnew
      rw [List.length_map] at hconcat
      rw [EntryBlock.call, hdeclare, List.map_append]
      exact hconcat

theorem declares_empty (sourceName entryPoint : String) :
    (empty sourceName entryPoint).Declares [] :=
  ⟨nofun, rfl, fun _ _ => iff_of_false nofun nofun⟩

theorem declares_start (sourceName entryPoint : String) :
    (start sourceName entryPoint).Declares [Intrinsic.initialization] :=
  (declares_empty sourceName entryPoint).call Intrinsic.initialization_mem_catalog _

/-! ## One call -/

theorem declarations_subset_declare (b : EntryBlock) (i : Intrinsic) :
    b.declarations ⊆ (b.declare i).declarations := by
  unfold declare
  split
  · exact List.Subset.refl _
  · exact List.subset_append_left _ _

@[simp]
theorem declare_instructions (b : EntryBlock) (i : Intrinsic) :
    (b.declare i).instructions = b.instructions := by
  unfold declare
  split <;> rfl

@[simp]
theorem declare_sourceName (b : EntryBlock) (i : Intrinsic) :
    (b.declare i).sourceName = b.sourceName := by
  unfold declare
  split <;> rfl

@[simp]
theorem declare_entryPoint (b : EntryBlock) (i : Intrinsic) :
    (b.declare i).entryPoint = b.entryPoint := by
  unfold declare
  split <;> rfl

@[simp]
theorem call_instructions (b : EntryBlock) (i : Intrinsic) (args : List Operand) :
    (b.call i args).instructions = b.instructions ++ [.call i.name args] := by
  simp [call]

/-- Declarations come from the catalog, none twice, and calls are made as declared. -/
structure Sound (b : EntryBlock) : Prop where
  declared : ∀ d ∈ b.declarations, ∃ i ∈ Intrinsic.catalog, d = i.declaration
  nodup : (b.declarations.map Declaration.name).Nodup
  called : ∀ x ∈ b.instructions, ∃ i args, x = .call i.name args ∧ i.Takes args ∧
    i ∈ Intrinsic.catalog ∧ i.declaration ∈ b.declarations

/-- A call keeps a program sound if the intrinsic takes the arguments. -/
theorem Sound.call (h : b.Sound) (hdeclares : b.Declares is) (hi : i ∈ Intrinsic.catalog)
    (hargs : i.Takes args) : (b.call i args).Sound where
  declared := (hdeclares.call hi args).exists_eq
  nodup := (hdeclares.call hi args).nodup
  called := by
    intro x hx
    rw [call_instructions] at hx
    rcases List.mem_append.mp hx with hx | hx
    · obtain ⟨j, args, hx, hargs, hj, hdeclared⟩ := h.called x hx
      exact ⟨j, args, hx, hargs, hj, declarations_subset_declare b i hdeclared⟩
    · have hmem : i.declaration ∈ (b.call i args).declarations :=
        (hdeclares.call hi args).mem_iff.mpr ⟨i, by simp, rfl⟩
      exact ⟨i, args, List.mem_singleton.mp hx, hargs, hi, hmem⟩

/-! ## Any number of calls -/

/-- The program has come about by calls of intrinsics, each with arguments that it takes. -/
inductive Built (name : String) : EntryBlock → Prop
  | start : Built name (start name name)
  | call {b : EntryBlock} {i : Intrinsic} {args : List Operand} (h : Built name b)
    (hi : i ∈ Intrinsic.catalog) (hargs : i.Takes args) : Built name (b.call i args)

theorem Built.declares (h : Built name b) : ∃ is, b.Declares is := by
  induction h with
  | start => exact ⟨_, declares_start name name⟩
  | call _ hi _ ih =>
    obtain ⟨is, hdeclares⟩ := ih
    exact ⟨_, hdeclares.call hi _⟩

theorem Built.sound (h : Built name b) : b.Sound := by
  induction h with
  | start =>
    have hempty : (empty name name).Sound := ⟨nofun, List.nodup_nil, nofun⟩
    exact hempty.call (declares_empty name name) Intrinsic.initialization_mem_catalog
      ⟨rfl, by simp⟩
  | call h hi hargs ih =>
    obtain ⟨is, hdeclares⟩ := h.declares
    exact ih.call hdeclares hi hargs

/-- The program begins with the initialization of the runtime. -/
theorem Built.head (h : Built name b) :
    b.instructions.head? = some (.call Intrinsic.initialization.name [.null]) := by
  induction h with
  | start => rfl
  | call _ _ _ ih =>
    obtain ⟨rest, heq⟩ := List.head?_eq_some_iff.mp ih
    rw [EntryBlock.call, declare_instructions, heq]
    rfl

theorem Built.names (h : Built name b) : b.sourceName = name ∧ b.entryPoint = name := by
  induction h with
  | start => exact ⟨rfl, rfl⟩
  | call _ _ _ ih => simpa [EntryBlock.call] using ih

/-! ## The calls of a circuit -/

/-- Emission only makes calls, also where an operation ends it. -/
theorem Built.emitFrom {registers : List Register} {options : Options} :
    ∀ {b : EntryBlock} {position : Nat} (os : List Operation), Built name b →
      Built name (b.emitFrom registers options position os).1
  | _, _, [], h => h
  | b, position, o :: os, h => by
    unfold EntryBlock.emitFrom
    split
    · exact h.emitFrom os
    · split
      · rename_i i args hcall
        obtain ⟨hi, hargs⟩ := Operation.takes_of_callOf hcall
        exact (h.call hi hargs).emitFrom os
      · exact h

theorem Built.emit (h : Built name b) (c : Circuit) (options : Options) :
    Built name (b.emit c options).1 :=
  h.emitFrom c.operations

theorem Built.recordRegister (h : Built name b) (r : Register) :
    Built name (b.recordRegister r) := by
  have harray : Intrinsic.recordArray ∈ Intrinsic.catalog :=
    Intrinsic.mem_catalog_of_runtime (by simp [Intrinsic.runtime])
  have hresult : Intrinsic.recordResult ∈ Intrinsic.catalog :=
    Intrinsic.mem_catalog_of_runtime (by simp [Intrinsic.runtime])
  refine List.foldlRecOn _ _ (h.call harray ⟨rfl, by simp⟩) ?_
  intro b h bit _
  exact h.call hresult ⟨rfl, by simp [indexOperand]⟩

theorem Built.recordOutput (h : Built name b) (registers : List Register) :
    Built name (b.recordOutput registers) :=
  List.foldlRecOn _ _ h fun _ h r _ => h.recordRegister r

end EntryBlock

/-- A module of a circuit is a finished program. -/
theorem Circuit.built_of_toModule {c : Circuit} {o : Options} {r : Resources} {m : Module}
    (h : c.toModule o r = .ok m) :
    ∃ b, EntryBlock.Built (entryPointName c o) b ∧ m = b.finish r o.profile := by
  unfold toModule at h
  dsimp only at h
  split at h
  · cases h
  · rename_i b hemit
    have hbuilt : EntryBlock.Built (entryPointName c o) b := by
      have hall := EntryBlock.Built.emit (@EntryBlock.Built.start (entryPointName c o)) c o
      rwa [hemit] at hall
    obtain rfl := Except.ok.inj h
    refine ⟨_, ?_, rfl⟩
    split
    · exact hbuilt.recordOutput c.registers
    · exact hbuilt

end CircuitQir
