import CircuitQir.Proofs.Bitcode.Stability
import CircuitQir.Proofs.Bitcode.Steps
import Mathlib.Data.List.Forall2
/-!
# What the reader hands out is closed

A module may refer to functions and attribute groups it does not have; one that has been read does
not (`Module.Closed`). The calls are settled by the numbering of values: a value that stands for a
function stands for one that is known, at every moment (`Grounded`), and functions never disappear
again. The bodies are settled by counting: a body is read for the first function without one, so
there are never more bodies than functions, and as none may be missing at the end, every function
has got the body that was read for it (`Module.FollowsBlocks`).
-/

namespace CircuitQir.Ir

/-- Nothing in the module refers to what the module does not have, no string of an attribute holds
a zero, and a return ends its block. -/
structure Module.Closed (m : Module) : Prop where
  callees : ∀ i ∈ m.instructions, ∀ callee ∈ i.callee?,
    (∃ d ∈ m.declarations, d.name = callee) ∨ ∃ f ∈ m.functions, f.name = callee
  declarations_resolved : ∀ d ∈ m.declarations, ∀ id ∈ d.attributes,
    ∃ g ∈ m.attributeGroups, g.id = id
  functions_resolved : ∀ f ∈ m.functions, ∀ id ∈ f.attributes, ∃ g ∈ m.attributeGroups, g.id = id
  nulFree : ∀ g ∈ m.attributeGroups, ∀ a ∈ g.attributes, a.NulFree
  ret_last : ∀ f ∈ m.functions, ∀ b ∈ f.blocks, .ret ∉ b.instructions.dropLast

end CircuitQir.Ir

namespace CircuitQir.Bitcode

open Ir Bitstream

variable {t t' : Tables}

/-! ## Blocks -/

theorem ret_notMem_of_filled : ∀ {parts : List (List Instruction)}, Filled parts →
    ∀ is ∈ parts, .ret ∉ is.dropLast
  | [], _ => by simp
  | is :: rest, ⟨hret, hrest⟩ => by
    refine List.forall_mem_cons.mpr ⟨hret, fun js hjs => ?_⟩
    split at hrest
    · exact ret_notMem_of_filled hrest js hjs
    · rw [hrest js hjs]
      exact List.not_mem_nil

theorem mem_movedUp {parts : List (List Instruction)} {is : List Instruction} :
    is ∈ movedUp parts ↔ is ∈ parts := by
  conv_rhs => rw [← List.takeWhile_append_dropWhile (p := List.isEmpty) (l := parts)]
  rw [movedUp, List.mem_append, List.mem_append, or_comm]

/-! ## Values and calls -/

/-- Every value that stands for a function stands for one of those known. -/
def Grounded (functions : List FunctionEntry) (values : List Value) : Prop :=
  ∀ i, .function i ∈ values → i < functions.length

/-- The callee, if there is one, is the name of a function. -/
def CallsOneOf (functions : List FunctionEntry) (i : Instruction) : Prop :=
  ∀ callee ∈ i.callee?, ∃ f ∈ functions, f.name = callee

section Functions

variable {fs gs : List FunctionEntry}

theorem Grounded.mono {values : List Value} (h : Grounded fs values) (hfs : fs <+: gs) :
    Grounded gs values :=
  fun i hi => Nat.lt_of_lt_of_le (h i hi) hfs.length_le

theorem CallsOneOf.mono {i : Instruction} (h : CallsOneOf fs i) (hfs : fs <+: gs) :
    CallsOneOf gs i := by
  intro callee hcallee
  obtain ⟨f, hf, hname⟩ := h callee hcallee
  exact ⟨f, hfs.subset hf, hname⟩

theorem Grounded.append {values more : List Value} (h : Grounded fs values)
    (hmore : ∀ v ∈ more, ∀ i, v ≠ .function i) : Grounded fs (values ++ more) := by
  intro i hi
  rcases List.mem_append.mp hi with hi | hi
  · exact h i hi
  · exact absurd rfl (hmore _ hi i)

theorem Grounded.append_constants {values : List Value} (h : Grounded fs values)
    (cs : List Constant) : Grounded fs (values ++ cs.map .constant) :=
  h.append (List.forall_mem_map.mpr (by simp))

/-- A call of a function that a value stands for. -/
theorem callsOneOf_of_mem {values : List Value} (h : Grounded fs values) {f : Nat}
    (hf : .function f ∈ values) (args : List Operand) :
    CallsOneOf fs (.call ((fs.map FunctionEntry.name).getD f "") args) := by
  intro callee hcallee
  obtain rfl : (fs.map FunctionEntry.name).getD f "" = callee := Option.some.inj hcallee
  have hlt : f < fs.length := h f hf
  refine ⟨fs[f], List.getElem_mem hlt, ?_⟩
  rw [List.getD_eq_getElem?_getD, List.getElem?_map, List.getElem?_eq_getElem hlt]
  rfl

end Functions

/-! ## Bodies -/

/-- What holds of a body while it is read: its values and its calls stand for functions. -/
structure Body.Linked (functions : List FunctionEntry) (b : Body) : Prop where
  values : Grounded functions b.values
  calls : ∀ block ∈ b.blocks, ∀ i ∈ block.instructions, CallsOneOf functions i

/-- An instruction of a body that has grown by one is the new one or was there before. -/
theorem Body.mem_of_append {b b' : Body} {i : Instruction} (h : b.append i = .ok b') :
    ∀ block ∈ b'.blocks, ∀ j ∈ block.instructions,
      j = i ∨ ∃ block' ∈ b.blocks, j ∈ block'.instructions := by
  obtain ⟨front, label, is, rest, hblocks, -, rfl⟩ := exists_of_append h
  rw [hblocks]
  intro block hblock j hj
  rcases List.mem_append.mp hblock with hblock | hblock
  · exact .inr ⟨block, List.mem_append_left _ hblock, hj⟩
  · rcases List.mem_cons.mp hblock with rfl | hblock
    · rcases List.mem_append.mp hj with hj | hj
      · exact .inr ⟨_, List.mem_append_right _ List.mem_cons_self, hj⟩
      · exact .inl (List.mem_singleton.mp hj)
    · exact .inr ⟨block, List.mem_append_right _ (List.mem_cons_of_mem _ hblock), hj⟩

namespace Body.Linked

variable {functions : List FunctionEntry} {b b' : Body}

theorem append {i : Instruction} (hb : b.Linked functions) (hi : CallsOneOf functions i)
    (h : b.append i = .ok b') : b'.Linked functions := by
  refine ⟨append_values h ▸ hb.values, fun block hblock j hj => ?_⟩
  rcases mem_of_append h block hblock j hj with rfl | ⟨old, hold, hj⟩
  · exact hi
  · exact hb.calls old hold j hj

theorem takes (hb : b.Linked t.functions) (h : b.Takes t b') : b'.Linked t.functions := by
  cases h with
  | nothing => exact hb
  | constants cs => exact ⟨hb.values.append_constants cs, hb.calls⟩
  | blocks count label => exact ⟨hb.values, by simp⟩
  | ret h => exact hb.append (by simp [CallsOneOf, Instruction.callee?]) h
  | call f args yields hf h =>
    have hvalues : Grounded t.functions
        (if yields then b.values ++ [Value.other] else b.values) := by
      split
      · exact hb.values.append (by simp)
      · exact hb.values
    have hnext : Linked t.functions
      { b with values := if yields then b.values ++ [Value.other] else b.values } :=
      ⟨hvalues, hb.calls⟩
    exact hnext.append (callsOneOf_of_mem hb.values hf args) h

theorem read {labels : List (Nat × String)} {size : Nat} {e : Entry} (hb : b.Linked t.functions)
    (h : b.read t labels size e = .ok b') : b'.Linked t.functions :=
  hb.takes (takes_of_read h)

/-- A body begins with the values of the module and with its parameters. -/
theorem start {params : List ValueType} (h : Grounded t.functions t.values) :
    Linked t.functions ⟨t.values ++ params.map (fun _ => Value.other), [], 0⟩ :=
  ⟨h.append (List.forall_mem_map.mpr (by simp)), by simp⟩

end Body.Linked

theorem callsOneOf_of_bodyOf {body : Bitstream.Block} {blocks : List Ir.Block}
    (ht : Grounded t.functions t.values) (h : bodyOf t body = .ok blocks) :
    ∀ b ∈ blocks, ∀ i ∈ b.instructions, CallsOneOf t.functions i := by
  obtain ⟨f, labels, result, params, b, -, -, hb, rfl⟩ := exists_of_bodyOf h
  exact (foldlM_invariant (fun _ _ _ hb h => Body.Linked.read hb h) (.start ht) hb).calls

theorem getElem?_mono {α : Type} {xs ys : List α} (h : xs <+: ys) {i : Nat} {x : α}
    (hi : xs[i]? = some x) : ys[i]? = some x := by
  obtain ⟨hlt, rfl⟩ := List.getElem?_eq_some_iff.mp hi
  exact List.prefix_iff_getElem?.mp h i hlt

namespace Tables

/-! ## Tables -/

/-- What holds of tables however they came about: values and calls stand for functions, and there
are not more bodies than functions to have them. -/
structure Linked (t : Tables) : Prop where
  values : Grounded t.functions t.values
  calls : ∀ blocks ∈ t.bodies, ∀ b ∈ blocks, ∀ i ∈ b.instructions, CallsOneOf t.functions i
  bodies_le : t.bodies.length ≤ t.defined.length

theorem linked_empty (strings : List UInt8) : (empty strings).Linked where
  values := by simp [empty, Grounded]
  calls := by simp [empty]
  bodies_le := Nat.le_refl 0

theorem Linked.addFunction (ht : t.Linked) (f : FunctionEntry) :
    Linked { t with
      values := t.values ++ [.function t.functions.length]
      functions := t.functions ++ [f] } where
  values := by
    intro i hi
    rw [List.length_append]
    rcases List.mem_append.mp hi with hi | hi
    · exact Nat.lt_succ_of_lt (ht.values i hi)
    · obtain rfl := Value.function.inj (List.mem_singleton.mp hi)
      exact Nat.lt_succ_self _
  calls blocks hblocks b hb i hi := (ht.calls blocks hblocks b hb i hi).mono ⟨[f], rfl⟩
  bodies_le := by
    refine Nat.le_trans ht.bodies_le ?_
    rw [defined, defined, List.filter_append, List.length_append]
    exact Nat.le_add_right _ _

theorem Linked.addBody (ht : t.Linked) {body : Bitstream.Block} {blocks : List Ir.Block}
    (h : bodyOf t body = .ok blocks) : Linked { t with bodies := t.bodies ++ [blocks] } where
  values := ht.values
  calls := by
    have hcalls := callsOneOf_of_bodyOf ht.values h
    exact List.forall_mem_append.mpr ⟨ht.calls, List.forall_mem_singleton.mpr hcalls⟩
  bodies_le := by
    obtain ⟨f, labels, result, params, b, hnext, -⟩ := exists_of_bodyOf h
    rw [List.length_append]
    exact (List.getElem?_eq_some_iff.mp hnext).1

theorem Linked.takes {e : Entry} (ht : t.Linked) (h : t.Takes e t') : t'.Linked := by
  cases h with
  | nothing => exact ht
  | function f => exact ht.addFunction f
  | body blocks h => exact ht.addBody h
  | constants cs => exact ⟨ht.values.append_constants cs, ht.calls, ht.bodies_le⟩
  | sourceName | groups | lists | types | flags => exact ⟨ht.values, ht.calls, ht.bodies_le⟩

theorem Linked.read {e : Entry} (ht : t.Linked) (h : t.read e = .ok t') : t'.Linked :=
  ht.takes (takes_of_read h)

/-! ## What stays in tables -/

/-- What has been read stays: further types, functions and bodies are put behind those known. -/
structure Grows (t t' : Tables) : Prop where
  types : t.types <+: t'.types
  functions : t.functions <+: t'.functions
  bodies : t.bodies <+: t'.bodies

theorem Grows.refl (t : Tables) : t.Grows t :=
  ⟨List.prefix_refl _, List.prefix_refl _, List.prefix_refl _⟩

theorem Grows.trans {t'' : Tables} (h : t.Grows t') (h' : t'.Grows t'') : t.Grows t'' :=
  ⟨h.types.trans h'.types, h.functions.trans h'.functions, h.bodies.trans h'.bodies⟩

theorem Takes.grows {e : Entry} (h : t.Takes e t') : t.Grows t' := by
  cases h with
  | types types => exact { Grows.refl t with types := List.prefix_append .. }
  | function f => exact { Grows.refl t with functions := List.prefix_append .. }
  | body blocks => exact { Grows.refl t with bodies := List.prefix_append .. }
  | nothing | sourceName | groups | lists | constants | flags => exact { Grows.refl t with }

/-- The function blocks among the entries of a block. -/
def functionBlocks (entries : List Entry) : List Bitstream.Block :=
  (entries.filterMap Entry.block?).filter (·.id = BlockId.function)

theorem functionBlocks_append (es es' : List Entry) :
    functionBlocks (es ++ es') = functionBlocks es ++ functionBlocks es' := by
  rw [functionBlocks, List.filterMap_append, List.filter_append, functionBlocks, functionBlocks]

theorem functionBlocks_other {e : Entry} (h : ∀ entries, e ≠ .block BlockId.function entries) :
    functionBlocks [e] = [] := by
  cases e with
  | record r => rfl
  | block id entries =>
    refine List.filter_cons_of_neg (decide_eq_true_iff.not.mpr ?_)
    rintro rfl
    exact h entries rfl

/-- There is one more body after a function block, and none after another entry. -/
theorem Takes.length_bodies {e : Entry} (h : t.Takes e t') :
    t'.bodies.length = t.bodies.length + (functionBlocks [e]).length := by
  cases h with
  | nothing he => rw [functionBlocks_other he, List.length_nil, Nat.add_zero]
  | body blocks => rw [List.length_append, List.length_singleton]; rfl
  | sourceName | function | groups | lists | types | constants | flags => rfl

theorem grows_of_foldlM_read : ∀ {es : List Entry} {t : Tables}, es.foldlM read t = .ok t' →
    t.Grows t' ∧ t'.bodies.length = t.bodies.length + (functionBlocks es).length
  | [], t, h => by
    obtain rfl := Except.ok.inj h
    exact ⟨.refl t, rfl⟩
  | e :: es, t, h => by
    obtain ⟨t₁, ht₁, h⟩ := bind_eq_ok h
    obtain ⟨hgrows, hlength⟩ := grows_of_foldlM_read h
    have htakes := takes_of_read ht₁
    have hblocks : functionBlocks (e :: es) = functionBlocks [e] ++ functionBlocks es :=
      functionBlocks_append [e] es
    refine ⟨htakes.grows.trans hgrows, ?_⟩
    rw [hlength, htakes.length_bodies, hblocks, List.length_append, Nat.add_assoc]

section Prefix

variable (htypes : t.types <+: t'.types)
include htypes

theorem typeEntry_mono {id : Nat} {e : TypeEntry} (h : t.typeEntry id = .ok e) :
    t'.typeEntry id = .ok e := by
  unfold typeEntry at h ⊢
  split at h
  · rename_i hid
    rw [getElem?_mono htypes hid]
    exact h
  · cases h

theorem valueType_mono {id : Nat} {v : ValueType} (h : t.valueType id = .ok v) :
    t'.valueType id = .ok v := by
  obtain ⟨e, he, h⟩ := bind_eq_ok h
  rw [valueType, bind_of_ok (typeEntry_mono htypes he)]
  exact h

theorem resultType_mono {id : Nat} {result : Option ValueType}
    (h : t.resultType id = .ok result) : t'.resultType id = .ok result := by
  obtain ⟨e, he, h⟩ := bind_eq_ok h
  rw [resultType, bind_of_ok (typeEntry_mono htypes he)]
  split at h
  · exact h
  · obtain ⟨v, hv, h⟩ := bind_eq_ok h
    exact (bind_of_ok (valueType_mono htypes hv) _).trans h

/-- A signature stays what it is when further types become known. -/
theorem signature_mono {id : Nat} {s : Option ValueType × List ValueType}
    (h : t.signature id = .ok s) : t'.signature id = .ok s := by
  obtain ⟨e, he, h⟩ := bind_eq_ok h
  rw [signature, bind_of_ok (typeEntry_mono htypes he)]
  split at h
  · obtain ⟨params, hparams, h⟩ := bind_eq_ok h
    obtain ⟨result, hresult, h⟩ := bind_eq_ok h
    refine (bind_of_ok (mapM_mono (fun _ _ => valueType_mono htypes) hparams) _).trans ?_
    exact (bind_of_ok (resultType_mono htypes hresult) _).trans h
  · cases h

end Prefix

/-! ## What becomes of tables -/

/-- Every function record becomes a declaration or a function of its name. -/
theorem names_of_assemble : ∀ {fs : List FunctionEntry} {bodies : List (List Ir.Block)}
    {ds : List Declaration} {gs : List Function}, t.assemble fs bodies = .ok (ds, gs) →
    ∀ f ∈ fs, (∃ d ∈ ds, d.name = f.name) ∨ ∃ g ∈ gs, g.name = f.name
  | [], _, _, _, _ => by simp
  | f :: fs, bodies, ds, gs, h => by
    unfold assemble at h
    obtain ⟨⟨result, params⟩, -, h⟩ := bind_eq_ok h
    dsimp only at h
    split at h
    · obtain ⟨⟨ds', gs'⟩, hrest, h⟩ := bind_eq_ok h
      obtain ⟨rfl, rfl⟩ := Prod.mk.inj (Except.ok.inj h)
      refine List.forall_mem_cons.mpr ⟨.inl ⟨_, List.mem_cons_self, rfl⟩, fun f' hf' => ?_⟩
      refine (names_of_assemble hrest f' hf').imp_left fun h => ?_
      obtain ⟨d, hd, hname⟩ := h
      exact ⟨d, List.mem_cons_of_mem _ hd, hname⟩
    · split at h
      · cases h
      · obtain ⟨⟨ds', gs'⟩, hrest, h⟩ := bind_eq_ok h
        obtain ⟨rfl, rfl⟩ := Prod.mk.inj (Except.ok.inj h)
        refine List.forall_mem_cons.mpr ⟨.inr ⟨_, List.mem_cons_self, rfl⟩, fun f' hf' => ?_⟩
        refine (names_of_assemble hrest f' hf').imp_right fun h => ?_
        obtain ⟨g, hg, hname⟩ := h
        exact ⟨g, List.mem_cons_of_mem _ hg, hname⟩

/-- The function is the one that a function record describes. -/
structure Describes (t : Tables) (e : FunctionEntry) (f : Function) : Prop where
  name : f.name = e.name
  attributes : f.attributes = e.attributes
  result : ∃ params, t.signature e.type = .ok (f.result, params)

/-- The function records that are no declarations become the functions, in order, and the bodies
are given out in order. -/
theorem functions_of_assemble : ∀ {fs : List FunctionEntry} {bodies : List (List Ir.Block)}
    {ds : List Declaration} {gs : List Function}, t.assemble fs bodies = .ok (ds, gs) →
    List.Forall₂ t.Describes (fs.filter (!·.isDeclaration)) gs ∧ gs.map (·.blocks) <+: bodies
  | [], bodies, ds, gs, h => by
    obtain ⟨-, rfl⟩ := Prod.mk.inj (Except.ok.inj h)
    exact ⟨.nil, List.nil_prefix⟩
  | f :: fs, bodies, ds, gs, h => by
    unfold assemble at h
    obtain ⟨⟨result, params⟩, hsignature, h⟩ := bind_eq_ok h
    dsimp only at h
    split at h
    · rename_i hdeclaration
      obtain ⟨⟨ds', gs'⟩, hrest, h⟩ := bind_eq_ok h
      obtain ⟨-, rfl⟩ := Prod.mk.inj (Except.ok.inj h)
      rw [List.filter_cons_of_neg (by simpa using hdeclaration)]
      exact functions_of_assemble hrest
    · rename_i hdeclaration
      split at h
      · cases h
      · obtain ⟨⟨ds', gs'⟩, hrest, h⟩ := bind_eq_ok h
        obtain ⟨-, rfl⟩ := Prod.mk.inj (Except.ok.inj h)
        obtain ⟨hdescribes, hbodies⟩ := functions_of_assemble hrest
        rw [List.filter_cons_of_pos (by simpa using hdeclaration)]
        exact ⟨.cons ⟨rfl, rfl, params, hsignature⟩ hdescribes,
          (List.prefix_cons_inj _).mpr hbodies⟩

/-- What a module has from linked tables: all their names, a function for each body, and for each
function the record that stands at its place. -/
theorem Linked.toModule {m : Module} (ht : t.Linked) (h : t.toModule = .ok m) :
    (∀ f ∈ t.functions, (∃ d ∈ m.declarations, d.name = f.name) ∨
      ∃ g ∈ m.functions, g.name = f.name) ∧
    m.functions.map (·.blocks) = t.bodies ∧ List.Forall₂ t.Describes t.defined m.functions := by
  obtain ⟨⟨declarations, functions⟩, hassemble, h⟩ := bind_eq_ok h
  obtain rfl := Except.ok.inj h
  obtain ⟨hdescribes, hbodies⟩ := functions_of_assemble hassemble
  refine ⟨names_of_assemble hassemble, hbodies.eq_of_length_le ?_, hdescribes⟩
  rw [List.length_map, ← hdescribes.length_eq]
  exact ht.bodies_le

/-- The body belongs to the function when the tables are as given: its blocks are what the body is
read as, and the first function record without a body describes it. -/
structure Gives (t : Tables) (body : Bitstream.Block) (f : Function) : Prop where
  blocks : bodyOf t body = .ok f.blocks
  record : ∃ e, t.defined[t.bodies.length]? = some e ∧ t.Describes e f

end Tables

/-! ## Whole files -/

/-- The functions of the module are those of the function blocks, one for each, in order: each has
the blocks that its function block is read as at its place. -/
structure FollowsBlocks (m : Module) (strings : List UInt8) (entries : List Entry) : Prop where
  length_eq : m.functions.length = (Tables.functionBlocks entries).length
  gives : ∀ before body after, entries = before ++ .block BlockId.function body :: after →
    ∃ t f, before.foldlM Tables.read (.empty strings) = .ok t ∧
      m.functions[(Tables.functionBlocks before).length]? = some f ∧
      t.Gives ⟨BlockId.function, body⟩ f

/-- What was read comes from the entries of the first module block. -/
theorem exists_of_decode {bytes : List UInt8} {m : Module} (h : decode bytes = .ok m) :
    ∃ blocks b t, Bitstream.decode magic bytes = .ok blocks ∧
      blocks.find? (·.id = BlockId.module) = some b ∧
      b.entries.foldlM Tables.read (.empty (stringTableOf blocks)) = .ok t ∧
      t.toModule = .ok m := by
  unfold decode at h
  split at h
  · cases h
  · rename_i blocks hblocks
    unfold moduleOf at h
    split at h
    · cases h
    · rename_i b hb
      obtain ⟨t, ht, h⟩ := bind_eq_ok h
      exact ⟨blocks, b, t, hblocks, hb, ht, h⟩

theorem followsBlocks_of_toModule {strings : List UInt8} {entries : List Entry} {m : Module}
    (ht : entries.foldlM Tables.read (.empty strings) = .ok t) (h : t.toModule = .ok m) :
    FollowsBlocks m strings entries := by
  have hlinked : t.Linked :=
    foldlM_invariant (fun _ _ _ => Tables.Linked.read) (Tables.linked_empty strings) ht
  obtain ⟨-, hbodies, hdescribes⟩ := hlinked.toModule h
  have hlength : t.bodies.length = (Tables.functionBlocks entries).length :=
    (Tables.grows_of_foldlM_read ht).2.trans (Nat.zero_add _)
  refine ⟨by rw [← hlength, ← hbodies, List.length_map], ?_⟩
  rintro before body after rfl
  -- The tables before the body, and behind it.
  rw [List.foldlM_append] at ht
  obtain ⟨t₀, ht₀, ht⟩ := bind_eq_ok ht
  obtain ⟨t₁, ht₁, ht⟩ := bind_eq_ok ht
  obtain ⟨blocks, hblocks, ht₁⟩ := bind_eq_ok ht₁
  obtain rfl := Except.ok.inj ht₁
  have hcount : t₀.bodies.length = (Tables.functionBlocks before).length :=
    (Tables.grows_of_foldlM_read ht₀).2.trans (Nat.zero_add _)
  have hgrows := (Tables.grows_of_foldlM_read ht).1
  obtain ⟨e, labels, result, params, b, he, hsignature, -⟩ := exists_of_bodyOf hblocks
  -- Blocks and record are still at that place in the end, so they are those of one function.
  have hat : (m.functions.map (·.blocks))[t₀.bodies.length]? = some blocks := by
    rw [hbodies]
    exact getElem?_mono hgrows.bodies List.getElem?_concat_length
  rw [List.getElem?_map] at hat
  obtain ⟨f, hf, rfl⟩ := Option.map_eq_some_iff.mp hat
  have he' : t.defined[t₀.bodies.length]? = some e :=
    getElem?_mono (hgrows.functions.filter _) he
  have hdescribed : t.Describes e f := by
    obtain ⟨hlt, rfl⟩ := List.getElem?_eq_some_iff.mp hf
    obtain ⟨hlt', rfl⟩ := List.getElem?_eq_some_iff.mp he'
    exact hdescribes.get hlt' hlt
  refine ⟨t₀, f, ht₀, hcount ▸ hf, hblocks, e, he, hdescribed.name, hdescribed.attributes, ?_⟩
  obtain ⟨params', hparams'⟩ := hdescribed.result
  have hresult := (Tables.signature_mono hgrows.types hsignature).symm.trans hparams'
  obtain ⟨rfl, -⟩ := Prod.mk.inj (Except.ok.inj hresult)
  exact ⟨params, hsignature⟩

/-- What is read is closed, and its functions are those of the function blocks. -/
theorem closed_of_decode {bytes : List UInt8} {m : Module} (h : decode bytes = .ok m) :
    m.Closed ∧ ∃ blocks b, Bitstream.decode magic bytes = .ok blocks ∧
      blocks.find? (·.id = BlockId.module) = some b ∧
      FollowsBlocks m (stringTableOf blocks) b.entries := by
  obtain ⟨blocks, b, t, hblocks, hb, ht, hm⟩ := exists_of_decode h
  refine ⟨?_, blocks, b, hblocks, hb, followsBlocks_of_toModule ht hm⟩
  have hlinked : t.Linked :=
    foldlM_invariant (fun _ _ _ => Tables.Linked.read) (Tables.linked_empty _) ht
  obtain ⟨hnames, hbodies, -⟩ := hlinked.toModule hm
  have hrestorable := restorable_of_decode h
  exact
    { callees := by
        intro i hi callee hcallee
        obtain ⟨f, hf, hi⟩ := List.mem_flatMap.mp hi
        obtain ⟨block, hblock, hi⟩ := List.mem_flatMap.mp hi
        have hbody : f.blocks ∈ t.bodies := hbodies ▸ List.mem_map_of_mem hf
        obtain ⟨e, he, rfl⟩ := hlinked.calls _ hbody block hblock i hi callee hcallee
        exact hnames e he
      declarations_resolved := hrestorable.declarations_resolved
      functions_resolved := fun f hf =>
        hrestorable.functions_resolved f.refilled (List.mem_map_of_mem hf)
      nulFree := hrestorable.nulFree
      ret_last := by
        intro f hf block hblock
        have hfilled := hrestorable.filled f.refilled (List.mem_map_of_mem hf)
        rw [f.parts_refilled] at hfilled
        refine ret_notMem_of_filled hfilled _ (mem_movedUp.mpr ?_)
        exact List.mem_map_of_mem hblock }

/-- A call of `f`, which is declared. -/
def callOfDeclared : List UInt8 :=
  fileOf [.record FunctionCode.blockCount [1],
    .record FunctionCode.call [0, 2 ^ explicitTypeBit, 2, 3], .record FunctionCode.ret []]

theorem closed_of_decode_callOfDeclared :
    decode callOfDeclared = .ok (moduleOfFile [⟨"", [.call "f" [], .ret]⟩]) ∧
      (moduleOfFile [⟨"", [.call "f" [], .ret]⟩]).Closed := by
  have hread : decode callOfDeclared = .ok (moduleOfFile [⟨"", [.call "f" [], .ret]⟩]) := by
    decide +kernel
  exact ⟨hread, (closed_of_decode hread).1⟩

end CircuitQir.Bitcode
