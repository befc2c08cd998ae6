import CircuitQir.Proofs.Bitcode.NormalForm
import CircuitQir.Proofs.Lowering.RoundTrip
import CircuitQir.Proofs.Scans
/-!
# What the checks leave open

A module that has passed all checks, those of its shape and those of its renderings, need not be
the one that its renderings are read as: counts and attribute groups are compared, names and
attribute ids are not. Two things can go wrong. A declaration may carry an id that no group has,
which the bitcode leaves out, and a name may contain the rest of its line and begin a comment,
which the text shows as something else. Everything else is settled by the checks
(`readings_of_checkRenderings`): the shape that is asked for lets instructions lie in one block
only, and attributes that hold a zero or a quote are read as other attributes.
-/

namespace CircuitQir

open Ir

variable {m : Module} {r : Resources}

/-! ## What has been checked -/

/-- A module that passes has one function of one block, and all its parts pass. -/
theorem verify_eq_ok (h : verify m r = .ok ()) : ∃ f b, m.functions = [f] ∧ f.blocks = [b] ∧
    checkEnds b.instructions = .ok () ∧ checkAttributes m f r = .ok () ∧
    checkNames [] m.declarations = .ok () ∧ ∀ i ∈ b.instructions, checkCall m i = .ok () := by
  unfold verify at h
  split at h
  · rename_i f hf
    split at h
    · rename_i b hb
      obtain ⟨⟨⟩, hends, h⟩ := bind_eq_ok h
      obtain ⟨⟨⟩, hattributes, h⟩ := bind_eq_ok h
      obtain ⟨⟨⟩, hnames, h⟩ := bind_eq_ok h
      exact ⟨f, b, hf, hb, hends, hattributes, hnames, ((scans_forM _).eq_ok_iff.mp h).1⟩
    · cases h
  · cases h

/-- The only return stands at the end. -/
theorem ret_last_of_checkEnds {is : List Instruction} (h : checkEnds is = .ok ()) :
    .ret ∉ is.dropLast := by
  obtain ⟨⟨⟩, -, h⟩ := bind_eq_ok h
  obtain ⟨⟨⟩, hlast, h⟩ := bind_eq_ok h
  have hcount : (is.filter Instruction.isTerminator).length = 1 :=
    of_decide_eq_true (ensure_eq_ok_iff.mp h)
  have hends := ensure_eq_ok_iff.mp hlast
  intro hret
  cases hi : is.getLast? with
  | none =>
    rw [hi] at hends
    cases hends
  | some i =>
    rw [hi] at hends
    have hterminator : i.isTerminator = true := hends
    have hpos : 0 < (is.dropLast.filter Instruction.isTerminator).length :=
      List.length_pos_of_mem (List.mem_filter.mpr ⟨hret, rfl⟩)
    rw [← List.dropLast_append_getLast? i hi, List.filter_append, List.length_append,
      List.filter_cons_of_pos hterminator, List.length_cons] at hcount
    omega

/-- The id of the entry point belongs to a group. -/
theorem resolved_of_checkAttributes {f : Function} (h : checkAttributes m f r = .ok ()) :
    ∀ id ∈ f.attributes, ∃ g ∈ m.attributeGroups, g.id = id := by
  unfold checkAttributes at h
  split at h
  · cases h
  · rename_i g hg
    obtain ⟨id, hid, hg⟩ := Option.bind_eq_some_iff.mp hg
    intro i hi
    obtain rfl := Option.some.inj (hid.symm.trans hi)
    exact ⟨g, List.mem_of_find?_eq_some hg, by simpa using List.find?_some hg⟩

/-- Renderings that pass are read, and what they are read as has the attribute groups of the
module. -/
theorem checkRenderings_eq_ok {text : String} {bitcode : List UInt8}
    (h : checkRenderings m text bitcode = .ok ()) :
    ∃ t b, Assembly.parse text = .ok t ∧ Bitcode.decode bitcode = .ok b ∧
      t.attributeGroups = m.attributeGroups ∧ b.attributeGroups = m.attributeGroups := by
  obtain ⟨t, b, ht, hb, htext, hbitcode⟩ := exists_of_checkRenderings h
  exact ⟨t, b, ht, hb, congrArg Tally.attributeGroups htext,
    congrArg Tally.attributeGroups hbitcode⟩

/-! ## What the renderings are read as -/

theorem resolvedId_eq_self_iff {groups : List AttributeGroup} {id : Option UInt32} :
    Bitcode.resolvedId groups id = id ↔ ∀ i ∈ id, ∃ g ∈ groups, g.id = i := by
  constructor
  · intro h
    rw [← h]
    exact Bitcode.exists_of_resolvedId
  · exact Bitcode.filter_resolved

/-- Nothing is left out exactly if every id has a group. -/
theorem resolved_eq_self_iff : Bitcode.resolved m = m ↔
    (∀ d ∈ m.declarations, ∀ id ∈ d.attributes, ∃ g ∈ m.attributeGroups, g.id = id) ∧
      ∀ f ∈ m.functions, ∀ id ∈ f.attributes, ∃ g ∈ m.attributeGroups, g.id = id := by
  simp only [← resolvedId_eq_self_iff]
  constructor
  · intro h
    have hdeclarations := (congrArg Module.declarations h).trans (List.map_id _).symm
    have hfunctions := (congrArg Module.functions h).trans (List.map_id _).symm
    exact ⟨fun d hd => congrArg Declaration.attributes (List.map_inj_left.mp hdeclarations d hd),
      fun f hf => congrArg Function.attributes (List.map_inj_left.mp hfunctions f hf)⟩
  · rintro ⟨hdeclarations, hfunctions⟩
    have hds : ∀ d ∈ m.declarations, { d with
        attributes := Bitcode.resolvedId m.attributeGroups d.attributes } = id d := by
      intro d hd
      rw [hdeclarations d hd]
      rfl
    have hfs : ∀ f ∈ m.functions, { f with
        attributes := Bitcode.resolvedId m.attributeGroups f.attributes } = id f := by
      intro f hf
      rw [hfunctions f hf]
      rfl
    rw [Bitcode.resolved, List.map_congr_left hds, List.map_congr_left hfs, List.map_id,
      List.map_id]

/-- A module that passes the checks is written to bitcode like the one without the ids that no
group has, and that one can be restored. -/
theorem writable_resolved (hverify : verify m r = .ok ())
    (hnulFree : ∀ g ∈ m.attributeGroups, ∀ a ∈ g.attributes, a.NulFree) :
    (Bitcode.resolved m).Writable := by
  obtain ⟨f, b, hf, hb, hends, -⟩ := verify_eq_ok hverify
  constructor
  · exact List.forall_mem_map.mpr fun d _ => Bitcode.exists_of_resolvedId
  · exact List.forall_mem_map.mpr fun f _ => Bitcode.exists_of_resolvedId
  · exact hnulFree
  · rw [Bitcode.resolved, hf]
    refine List.forall_mem_singleton.mpr ⟨?_, ?_⟩
    · rw [hb]
      exact List.forall_mem_singleton.mpr (ret_last_of_checkEnds hends)
    · rw [hb]
      exact fun _ h => absurd h List.not_mem_nil

/-- Whatever a module that passes all checks is, its bitcode is read as the module without those
attribute ids that no group has, and its text is read as the module (with one NaN for all)
exactly if the module is spellable. So the renderings mean the same module, the one they were made
from, exactly if it is spellable and the ids of its declarations have groups. -/
theorem readings_of_checkRenderings (hverify : verify m r = .ok ())
    (hcheck : checkRenderings m (Assembly.print m) (Bitcode.encode m) = .ok ()) :
    ∃ t b, Assembly.parse (Assembly.print m) = .ok t ∧ Bitcode.decode (Bitcode.encode m) = .ok b ∧
      (t = m.shown ↔ m.Spellable) ∧ b = Bitcode.resolved m ∧
      (b = m ↔ ∀ d ∈ m.declarations, ∀ id ∈ d.attributes, ∃ g ∈ m.attributeGroups, g.id = id) := by
  obtain ⟨t, b, ht, hb, -, hgroups⟩ := checkRenderings_eq_ok hcheck
  have hnulFree : ∀ g ∈ m.attributeGroups, ∀ a ∈ g.attributes, a.NulFree := by
    rw [← hgroups]
    exact (Bitcode.restorable_of_decode hb).nulFree
  have hencode : Bitcode.encode (Bitcode.resolved m) = Bitcode.encode m :=
    Bitcode.encode_eq_of_outline (Bitcode.outline_resolved m)
  obtain rfl : b = Bitcode.resolved m :=
    Bitcode.eq_of_decode_encode (writable_resolved hverify hnulFree) (hencode ▸ hb)
  refine ⟨t, _, ht, hb, Assembly.eq_shown_iff ht, rfl, ?_⟩
  obtain ⟨f, block, hf, -, -, hattributes, -⟩ := verify_eq_ok hverify
  rw [resolved_eq_self_iff, hf, List.forall_mem_singleton]
  exact and_iff_left (resolved_of_checkAttributes hattributes)

/-! ## Modules that drift -/

/-- A program that calls one function, with the given names and texts. -/
def smallProgram (sourceName callee entryPoint label key : String) (value : Int32)
    (attributes : Option UInt32) : Module where
  sourceName := sourceName
  declarations := [⟨Intrinsic.initialization.name, [.ptr], none, attributes⟩,
    ⟨callee, [], none, none⟩]
  functions := [⟨entryPoint, none, some 0,
    [⟨label, [.call Intrinsic.initialization.name [.null], .call callee [], .ret]⟩]⟩]
  attributeGroups := [⟨0, [.flag "entry_point", .keyValue "requiredQubits" "0",
    .keyValue "requiredResults" "0"]⟩]
  flags := [⟨1, key, .i32 value⟩]

theorem writable_smallProgram (sourceName callee entryPoint label key : String) (value : Int32) :
    (smallProgram sourceName callee entryPoint label key value none).Writable where
  declarations_resolved := by simp [smallProgram]
  functions_resolved := by simp [smallProgram]
  nulFree := by
    show ∀ g ∈ [AttributeGroup.mk 0 _], _
    decide
  shaped := List.forall_mem_singleton.mpr
    ⟨List.forall_mem_singleton.mpr (by simp), by simp⟩

/-- No group has the id of a declaration. -/
def danglingId : Module := smallProgram "source" "f" "main" "entry" "key" 1 (some 7)

/-- Every name and every text outside of attributes contains the rest of its line, and then a line
that begins a comment. -/
def spilledNames : Module :=
  smallProgram "source\"\n; " "f()\n; " "main() #0 \x7b\n; " "entry:\n; "
    "key\", i32 2\x7d\n; " 1 none

theorem decode_encode_danglingId : Bitcode.decode (Bitcode.encode danglingId) =
    .ok (smallProgram "source" "f" "main" "entry" "key" 1 none) := by
  have hresolved : Bitcode.resolved danglingId =
      smallProgram "source" "f" "main" "entry" "key" 1 none := by
    decide
  have hencode := Bitcode.encode_eq_of_outline (Bitcode.outline_resolved danglingId)
  rw [← hencode, hresolved]
  exact Bitcode.decode_encode_of_callsFit (writable_smallProgram ..)
    (Bitcode.length_encode_lt_of_extent (by decide +kernel)) (by decide)

theorem parse_print_danglingId :
    Assembly.parse (Assembly.print danglingId) = .ok danglingId :=
  Assembly.parse_print (by decide)
    (List.forall_mem_singleton.mpr (List.forall_mem_singleton.mpr (by decide)))
    (by decide +kernel)

theorem decode_encode_spilledNames :
    Bitcode.decode (Bitcode.encode spilledNames) = .ok spilledNames :=
  Bitcode.decode_encode_of_callsFit (writable_smallProgram ..)
    (Bitcode.length_encode_lt_of_extent (by decide +kernel)) (by decide)

theorem parse_print_spilledNames : Assembly.parse (Assembly.print spilledNames) =
    .ok (smallProgram "source" "f" "main" "entry" "key" 2 none) := by
  unfold Assembly.parse Assembly.print
  rw [toList_unlines]
  decide +kernel

theorem verify_danglingId : verify danglingId ⟨0, 0⟩ = .ok () := by decide +kernel

theorem checkRenderings_danglingId :
    checkRenderings danglingId (Assembly.print danglingId) (Bitcode.encode danglingId) = .ok () :=
  (checkRenderings_eq_ok_iff parse_print_danglingId decode_encode_danglingId).mpr ⟨rfl, rfl⟩

theorem checkRenderings_spilledNames :
    checkRenderings spilledNames (Assembly.print spilledNames) (Bitcode.encode spilledNames) =
      .ok () :=
  (checkRenderings_eq_ok_iff parse_print_spilledNames decode_encode_spilledNames).mpr ⟨rfl, rfl⟩

theorem readings_of_danglingId :
    verify danglingId ⟨0, 0⟩ = .ok () ∧
      checkRenderings danglingId (Assembly.print danglingId) (Bitcode.encode danglingId) =
        .ok () ∧
      ∃ t b, Assembly.parse (Assembly.print danglingId) = .ok t ∧
        Bitcode.decode (Bitcode.encode danglingId) = .ok b ∧
        (t = danglingId.shown ↔ danglingId.Spellable) ∧ b = Bitcode.resolved danglingId ∧
        (b = danglingId ↔ ∀ d ∈ danglingId.declarations, ∀ id ∈ d.attributes,
          ∃ g ∈ danglingId.attributeGroups, g.id = id) :=
  ⟨verify_danglingId, checkRenderings_danglingId,
    readings_of_checkRenderings verify_danglingId checkRenderings_danglingId⟩

/-- Both modules pass all checks. The bitcode of the one and the text of the other are read as
another module than they were made from. -/
theorem danglingId_spilledNames_drift :
    (verify danglingId ⟨0, 0⟩ = .ok () ∧
      checkRenderings danglingId (Assembly.print danglingId) (Bitcode.encode danglingId) = .ok () ∧
      Assembly.parse (Assembly.print danglingId) = .ok danglingId ∧
      ∃ b, Bitcode.decode (Bitcode.encode danglingId) = .ok b ∧ b ≠ danglingId) ∧
    verify spilledNames ⟨0, 0⟩ = .ok () ∧
      checkRenderings spilledNames (Assembly.print spilledNames) (Bitcode.encode spilledNames) =
        .ok () ∧
      Bitcode.decode (Bitcode.encode spilledNames) = .ok spilledNames ∧
      ∃ t, Assembly.parse (Assembly.print spilledNames) = .ok t ∧ t ≠ spilledNames :=
  ⟨⟨verify_danglingId, checkRenderings_danglingId, parse_print_danglingId, _,
      decode_encode_danglingId, by decide⟩,
    by decide +kernel, checkRenderings_spilledNames, decode_encode_spilledNames, _,
      parse_print_spilledNames, by decide⟩

end CircuitQir
