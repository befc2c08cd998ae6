import CircuitQir.Proofs.Bitcode.Filling
import CircuitQir.Proofs.Bitcode.RoundTrip
/-!
# Writing again what was read

The reader accepts much that the writer has no form for: a call may state another type than its
callee has, more blocks may be declared than the body has use for, and blocks may be skipped.
What it reads has sound tables all the same (`Tables.Sound`), so the module is restorable once its
instructions have been moved up. That settles whether the module is read back from its own
bitcode, and as what (`decode_encode_of_decode`).
-/

namespace CircuitQir.Bitcode

open Ir Bitstream

/-! ## Attributes -/

theorem encode_of_stringOf {ops : List Nat} {s : String} (h : stringOf ops = .ok s) :
    (Utf8.encode s).map UInt8.toNat = ops := by
  unfold stringOf at h
  split at h
  · rename_i hall
    split at h
    · rename_i hs
      obtain rfl := Except.ok.inj h
      rw [Utf8.encode_of_decode? hs, List.map_map]
      refine (List.map_congr_left fun n hn => ?_).trans (List.map_id ops)
      exact Nat.mod_eq_of_lt (of_decide_eq_true (List.all_eq_true.mp hall n hn))
    · cases h
  · cases h

/-- A string that ends at the first zero has none among its bytes. -/
theorem nul_notMem_of_terminatedStringOf {ops rest : List Nat} {s : String}
    (h : terminatedStringOf ops = .ok (s, rest)) : 0 ∉ Utf8.encode s := by
  unfold terminatedStringOf at h
  split at h
  · obtain ⟨s', hs', h⟩ := bind_eq_ok h
    obtain ⟨rfl, -⟩ := Prod.mk.inj (Except.ok.inj h)
    intro hzero
    have hmem : 0 ∈ ops.takeWhile (· != 0) := by
      rw [← encode_of_stringOf hs']
      exact List.mem_map_of_mem hzero
    have hne := List.all_eq_true.mp List.all_takeWhile 0 hmem
    exact absurd hne (by decide)
  · cases h

theorem nulFree_of_attributesOf (ops : List Nat) : ∀ {attributes : List Attribute},
    attributesOf ops = .ok attributes → ∀ a ∈ attributes, a.NulFree := by
  fun_induction attributesOf ops with
  | case1 =>
    intro attributes h
    obtain rfl := Except.ok.inj h
    exact nofun
  | case3 ops key rest hkey ih =>
    intro attributes h
    obtain ⟨others, hothers, h⟩ := bind_eq_ok h
    obtain rfl := Except.ok.inj h
    exact List.forall_mem_cons.mpr ⟨nul_notMem_of_terminatedStringOf hkey, ih hothers⟩
  | case5 ops key rest hkey value rest' hvalue ih =>
    intro attributes h
    obtain ⟨others, hothers, h⟩ := bind_eq_ok h
    obtain rfl := Except.ok.inj h
    exact List.forall_mem_cons.mpr
      ⟨⟨nul_notMem_of_terminatedStringOf hkey, nul_notMem_of_terminatedStringOf hvalue⟩,
        ih hothers⟩
  | case2 | case4 | case6 =>
    intro attributes h
    cases h

theorem nulFree_of_groupOf {ops : List Nat} {number : Nat} {g : AttributeGroup}
    (h : groupOf ops = .ok (number, g)) : ∀ a ∈ g.attributes, a.NulFree := by
  unfold groupOf at h
  split at h
  · split at h
    · cases h
    · split at h
      · cases h
      · obtain ⟨attributes, hattributes, h⟩ := bind_eq_ok h
        obtain ⟨-, rfl⟩ := Prod.mk.inj (Except.ok.inj h)
        exact nulFree_of_attributesOf _ hattributes
  · cases h

namespace Tables

/-! ## What the tables hold -/

/-- What holds of tables however they came about. -/
structure Sound (t : Tables) : Prop where
  nulFree : ∀ g ∈ t.groups, ∀ a ∈ g.2.attributes, a.NulFree
  resolved : ∀ f ∈ t.functions, ∀ id ∈ f.attributes, ∃ g ∈ t.groups, g.2.id = id
  filled : ∀ bs ∈ t.bodies, Filled (movedUp (bs.map (·.instructions)))

variable {t t' : Tables}

theorem sound_empty (strings : List UInt8) : (empty strings).Sound := ⟨nofun, nofun, nofun⟩

theorem resolved_of_attributes {list : Nat} {id : Option UInt32} (h : t.attributes list = .ok id) :
    ∀ i ∈ id, ∃ g ∈ t.groups, g.2.id = i := by
  unfold attributes at h
  split at h
  · obtain rfl := Except.ok.inj h
    exact nofun
  · split at h
    · cases h
    · split at h
      · rename_i hg
        obtain rfl := Except.ok.inj h
        intro i hi
        obtain rfl := Option.some.inj hi
        exact ⟨_, List.mem_of_find?_eq_some hg, rfl⟩
      · cases h
    · cases h

theorem filled_of_bodyOf {body : Bitstream.Block} {bs : List Ir.Block}
    (h : bodyOf t body = .ok bs) : Filled (movedUp (bs.map (·.instructions))) := by
  obtain ⟨f, labels, result, params, b, -, -, hb, rfl⟩ := exists_of_bodyOf h
  have hstart : Filling [] 0 := .blank (fun _ hb => absurd hb List.not_mem_nil) 0
  exact (foldlM_invariant (p := fun b => Filling b.blocks b.current)
    (fun _ _ _ => Filling.read) hstart hb).filled

theorem Sound.takes {e : Entry} (ht : t.Sound) (h : t.Takes e t') : t'.Sound := by
  cases h with
  | nothing => exact ht
  | function f list hattributes =>
    refine ⟨ht.nulFree, List.forall_mem_append.mpr ⟨ht.resolved, ?_⟩, ht.filled⟩
    exact List.forall_mem_singleton.mpr (resolved_of_attributes hattributes)
  | groups groups hgroups =>
    refine ⟨List.forall_mem_append.mpr ⟨ht.nulFree, fun g hg => ?_⟩, fun f hf id hid => ?_,
      ht.filled⟩
    · obtain ⟨ops, hops⟩ := hgroups g hg
      exact nulFree_of_groupOf hops
    · obtain ⟨g, hg, hid⟩ := ht.resolved f hf id hid
      exact ⟨g, List.mem_append_left _ hg, hid⟩
  | body blocks hblocks =>
    refine ⟨ht.nulFree, ht.resolved, List.forall_mem_append.mpr ⟨ht.filled, ?_⟩⟩
    exact List.forall_mem_singleton.mpr (filled_of_bodyOf hblocks)
  | sourceName | lists | types | constants | flags =>
    exact ⟨ht.nulFree, ht.resolved, ht.filled⟩

theorem Sound.read {e : Entry} (ht : t.Sound) (h : t.read e = .ok t') : t'.Sound :=
  ht.takes (takes_of_read h)

/-! ## What becomes of them -/

/-- Declarations and functions come from function records, blocks from bodies. -/
theorem origin_of_assemble : ∀ {fs : List FunctionEntry} {bodies : List (List Ir.Block)}
    {ds : List Declaration} {gs : List Function}, t.assemble fs bodies = .ok (ds, gs) →
    (∀ d ∈ ds, ∃ f ∈ fs, f.attributes = d.attributes) ∧
      ∀ g ∈ gs, (∃ f ∈ fs, f.attributes = g.attributes) ∧ g.blocks ∈ bodies
  | [], bodies, ds, gs, h => by
    obtain ⟨rfl, rfl⟩ := Prod.mk.inj (Except.ok.inj h)
    exact ⟨nofun, nofun⟩
  | f :: fs, bodies, ds, gs, h => by
    unfold assemble at h
    obtain ⟨⟨result, params⟩, -, h⟩ := bind_eq_ok h
    dsimp only at h
    split at h
    · obtain ⟨⟨ds', gs'⟩, hrest, h⟩ := bind_eq_ok h
      obtain ⟨rfl, rfl⟩ := Prod.mk.inj (Except.ok.inj h)
      obtain ⟨hds, hgs⟩ := origin_of_assemble hrest
      constructor
      · refine List.forall_mem_cons.mpr ⟨⟨f, List.mem_cons_self, rfl⟩, fun d hd => ?_⟩
        obtain ⟨f', hf', heq⟩ := hds d hd
        exact ⟨f', List.mem_cons_of_mem f hf', heq⟩
      · intro g hg
        obtain ⟨⟨f', hf', heq⟩, hblocks⟩ := hgs g hg
        exact ⟨⟨f', List.mem_cons_of_mem f hf', heq⟩, hblocks⟩
    · split at h
      · cases h
      · obtain ⟨⟨ds', gs'⟩, hrest, h⟩ := bind_eq_ok h
        obtain ⟨rfl, rfl⟩ := Prod.mk.inj (Except.ok.inj h)
        obtain ⟨hds, hgs⟩ := origin_of_assemble hrest
        constructor
        · intro d hd
          obtain ⟨f', hf', heq⟩ := hds d hd
          exact ⟨f', List.mem_cons_of_mem f hf', heq⟩
        · refine List.forall_mem_cons.mpr
            ⟨⟨⟨f, List.mem_cons_self, rfl⟩, List.mem_cons_self⟩, fun g hg => ?_⟩
          obtain ⟨⟨f', hf', heq⟩, hblocks⟩ := hgs g hg
          exact ⟨⟨f', List.mem_cons_of_mem f hf', heq⟩, List.mem_cons_of_mem _ hblocks⟩

theorem restorable_of_toModule {m : Module} (ht : t.Sound) (h : t.toModule = .ok m) :
    m.refilled.Restorable := by
  obtain ⟨⟨declarations, functions⟩, hassemble, h⟩ := bind_eq_ok h
  obtain rfl := Except.ok.inj h
  obtain ⟨hdeclarations, hfunctions⟩ := origin_of_assemble hassemble
  have hresolved : ∀ f ∈ t.functions, ∀ id ∈ f.attributes, ∃ g ∈ t.groups.map (·.2), g.id = id := by
    intro f hf id hid
    obtain ⟨g, hg, hid⟩ := ht.resolved f hf id hid
    exact ⟨g.2, List.mem_map_of_mem hg, hid⟩
  constructor
  · intro d hd
    obtain ⟨f, hf, heq⟩ := hdeclarations d hd
    exact heq ▸ hresolved f hf
  · refine List.forall_mem_map.mpr fun g hg => ?_
    obtain ⟨⟨f, hf, heq⟩, -⟩ := hfunctions g hg
    exact fun id hid => hresolved f hf id (heq ▸ hid)
  · exact List.forall_mem_map.mpr ht.nulFree
  · refine List.forall_mem_map.mpr fun g hg => ?_
    rw [g.parts_refilled]
    exact ht.filled _ (hfunctions g hg).2

end Tables

/-! ## Whole files -/

/-- What is read is restorable once its instructions have been moved up. -/
theorem restorable_of_decode {bytes : List UInt8} {m : Module} (h : decode bytes = .ok m) :
    m.refilled.Restorable := by
  unfold decode at h
  split at h
  · cases h
  · unfold moduleOf at h
    split at h
    · cases h
    · obtain ⟨t, ht, h⟩ := bind_eq_ok h
      have hsound : t.Sound :=
        foldlM_invariant (fun _ _ _ => Tables.Sound.read) (Tables.sound_empty _) ht
      exact Tables.restorable_of_toModule hsound h

/-- What was read is read back from its own bitcode, provided that this is short, that every call
passes as many arguments as the first function of its name takes, and that every body has as many
entries as its function has blocks. If a call or a body does not fit, nothing is read back. What is
read back has its instructions moved up: it is the same module exactly if no function has a first
block that is empty while another is not. Its own bitcode is the same in any case. -/
theorem decode_encode_of_decode {bytes : List UInt8} {m : Module} (h : decode bytes = .ok m) :
    ((encode m).length < 2 ^ 34 → m.BlocksFit → m.CallsFit →
        decode (encode m) = .ok m.refilled) ∧
      (¬ (m.BlocksFit ∧ m.CallsFit) → ∃ e, decode (encode m) = .error e) ∧
      (∀ m', decode (encode m) = .ok m' → m' = m.refilled ∧ encode m' = encode m) ∧
      (m.refilled = m ↔ ∀ f ∈ m.functions, f.StartsFilled) := by
  have hrestorable := restorable_of_decode h
  rw [← encode_refilled m, ← blocksFit_refilled m, ← callsFit_refilled m]
  refine ⟨fun hlength hblocks hcalls => ?_, fun hfit => ?_, fun m' hm' => ?_,
    m.refilled_eq_self_iff⟩
  · exact decode_encode_of_fit hrestorable hlength ⟨hblocks, hcalls⟩
  · exact decode_encode_error hrestorable hfit
  · obtain ⟨rfl, -⟩ := decode_encode_eq_ok hrestorable hm'
    exact ⟨rfl, rfl⟩

/-- A file that declares `f` and defines `main`, both without parameters. Its types are `void`,
pointers, `void ()` and `void (ptr)`, and its only constant is a null pointer. The body of `main`
consists of the given items. -/
def fileOf (body : List Item) : List UInt8 :=
  Bitstream.encode magic
    [.block BlockId.module 3
      [.record ModuleCode.version [formatVersion],
        .block BlockId.types 4
          [.record TypeCode.void [], .record TypeCode.pointer [0],
            .record TypeCode.function [0, 0], .record TypeCode.function [0, 0, 1]],
        .record ModuleCode.function [0, 1, 2, 0, 1, 0, 0],
        .record ModuleCode.function [1, 4, 2, 0, 0, 0, 0],
        .block BlockId.constants 4
          [.record ConstantCode.setType [1], .record ConstantCode.null []],
        .block BlockId.function 4 body],
      .block BlockId.stringTable 3
        [.blobAbbreviation StringTableCode.blob, .blob (Utf8.encode "fmain")]]

/-- The module in such a file. -/
def moduleOfFile (blocks : List Ir.Block) : Module :=
  ⟨"", [⟨"f", [], none, none⟩], [⟨"main", none, none, blocks⟩], [], []⟩

/-- Blocks are counted again when the first one has got its return. -/
def recountedBlocks : List UInt8 :=
  fileOf [.record FunctionCode.blockCount [2], .record FunctionCode.ret [],
    .record FunctionCode.blockCount [2], .record FunctionCode.ret []]

/-- The block that was skipped is found at the end. -/
theorem decode_encode_of_recountedBlocks :
    decode recountedBlocks = .ok (moduleOfFile [⟨"", []⟩, ⟨"", [.ret]⟩]) ∧
      decode (encode (moduleOfFile [⟨"", []⟩, ⟨"", [.ret]⟩])) =
        .ok (moduleOfFile [⟨"", [.ret]⟩, ⟨"", []⟩]) := by
  have hread : decode recountedBlocks = .ok (moduleOfFile [⟨"", []⟩, ⟨"", [.ret]⟩]) := by
    decide +kernel
  exact ⟨hread, (decode_encode_of_decode hread).1 (length_encode_lt_of_extent (by decide +kernel))
    (by decide) (by decide)⟩

/-- A call of `f` that states the type `void (ptr)` and passes the null pointer. -/
def mistypedCall : List UInt8 :=
  fileOf [.record FunctionCode.blockCount [1],
    .record FunctionCode.call [0, 2 ^ explicitTypeBit, 3, 3, 1], .record FunctionCode.ret []]

/-- Three blocks for one return. What makes up for it is an entry without meaning. -/
def spareBlocks : List UInt8 :=
  fileOf [.record FunctionCode.blockCount [3], .record FunctionCode.ret [],
    .block BlockId.symbols 4 []]

/-- Both are read, and neither can be read back. -/
theorem decode_encode_fails :
    (decode mistypedCall = .ok (moduleOfFile [⟨"", [.call "f" [.null], .ret]⟩]) ∧
      decode (encode (moduleOfFile [⟨"", [.call "f" [.null], .ret]⟩])) =
        .error (.invalid (.argumentCount "f" 1 0))) ∧
      decode spareBlocks = .ok (moduleOfFile [⟨"", [.ret]⟩, ⟨"", []⟩, ⟨"", []⟩]) ∧
        decode (encode (moduleOfFile [⟨"", [.ret]⟩, ⟨"", []⟩, ⟨"", []⟩])) =
          .error (.invalid .blockCount) := by
  decide +kernel

end CircuitQir.Bitcode
