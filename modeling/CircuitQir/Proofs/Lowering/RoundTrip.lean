import CircuitQir.Proofs.Lowering.Parity
/-!
# The renderings of a program

Before a program is handed out, its renderings are read back, but only counts and attributes are
compared. All the same, both renderings of every program that is handed out give back its module
(`Circuit.parse_decode_of_lower`): finished programs meet the conditions of both formats, and
bitcode that is read at all is read as the module it was made from.
-/

namespace CircuitQir

open Ir

/-- What has been checked can be read. -/
theorem read_of_checkRenderings {m : Module} {text : String} {bitcode : List UInt8}
    (h : checkRenderings m text bitcode = .ok ()) :
    ∃ m', Bitcode.decode bitcode = .ok m' := by
  obtain ⟨-, m', -, hdecode, -⟩ := exists_of_checkRenderings h
  exact ⟨m', hdecode⟩

namespace Circuit

variable {c : Circuit} {o : Options} {r : Resources} {m : Module} {p : Program}

/-! ## From a module to a program -/

/-- The text of every module that a circuit becomes gives back the module. -/
theorem parse_print_of_toModule (h : c.toModule o r = .ok m) :
    Assembly.parse (Assembly.print m) = .ok m := by
  obtain ⟨b, hbuilt, rfl⟩ := built_of_toModule h
  have hcount : EntryBlock.moduleFlags.length ≤ 2 ^ 32 := by decide
  exact Assembly.parse_print hcount (EntryBlock.finish_hasNumbers hbuilt.sound)
    (EntryBlock.finish_spellable hbuilt (isName_identifierOf _))

/-- So does its bitcode, unless it is too long to be read. -/
theorem decode_encode_of_toModule (h : c.toModule o r = .ok m)
    (hlength : (Bitcode.encode m).length < 2 ^ 34) :
    Bitcode.decode (Bitcode.encode m) = .ok m := by
  obtain ⟨b, hbuilt, rfl⟩ := built_of_toModule h
  exact Bitcode.decode_encode_of_callsFit (EntryBlock.finish_writable hbuilt.sound) hlength
    (EntryBlock.finish_callsFit hbuilt.sound)

/-- Bitcode of such a module is never read as another module, however long it is. -/
theorem eq_of_decode_of_toModule (h : c.toModule o r = .ok m) {m' : Module}
    (hdecode : Bitcode.decode (Bitcode.encode m) = .ok m') : m' = m := by
  obtain ⟨b, hbuilt, rfl⟩ := built_of_toModule h
  exact Bitcode.eq_of_decode_encode (EntryBlock.finish_writable hbuilt.sound) hdecode

/-- No module that a circuit becomes is malformed. -/
theorem verify_of_toModule (h : c.toModule o r = .ok m) : verify m r = .ok () := by
  obtain ⟨b, hbuilt, rfl⟩ := built_of_toModule h
  exact EntryBlock.verify_finish hbuilt

/-- If the circuit has bitcode, it has fewer than `2 ^ 34` bytes. -/
def ShortBitcode (c : Circuit) (o : Options) : Prop :=
  ∀ r m, Resources.account c = .ok r → c.toModule o r = .ok m →
    (Bitcode.encode m).length < 2 ^ 34

theorem shortBitcode_of_length (hr : Resources.account c = .ok r) (hm : c.toModule o r = .ok m)
    (h : (Bitcode.encode m).length < 2 ^ 34) : c.ShortBitcode o := by
  intro r' m' hr' hm'
  obtain rfl := Except.ok.inj (hr.symm.trans hr')
  obtain rfl := Except.ok.inj (hm.symm.trans hm')
  exact h

/-- Once there is a module, there is a program, provided that the bitcode is not too long. -/
theorem lower_of_toModule (hshort : c.ShortBitcode o) (hr : Resources.account c = .ok r)
    (hm : c.toModule o r = .ok m) :
    c.lower o = .ok ⟨m, Assembly.print m, Bitcode.encode m, r⟩ := by
  have hcheck := (checkRenderings_eq_ok_iff (parse_print_of_toModule hm)
    (decode_encode_of_toModule hm (hshort r m hr hm))).mpr ⟨rfl, rfl⟩
  unfold lower
  rw [bind_of_ok hr, bind_of_ok hm, verify_of_toModule hm]
  dsimp only
  rw [hcheck]
  rfl

/-- How a program comes about. -/
theorem lower_eq_ok (h : c.lower o = .ok p) :
    ∃ r m, Resources.account c = .ok r ∧ c.toModule o r = .ok m ∧
      checkRenderings m (Assembly.print m) (Bitcode.encode m) = .ok () ∧
      p = ⟨m, Assembly.print m, Bitcode.encode m, r⟩ := by
  obtain ⟨r, hr, h⟩ := bind_eq_ok h
  obtain ⟨m, hm, h⟩ := bind_eq_ok h
  obtain ⟨-, -, h⟩ := bind_eq_ok h
  obtain ⟨_, hcheck, h⟩ := bind_eq_ok h
  exact ⟨r, m, hr, hm, eq_ok_of_mapError hcheck, (Except.ok.inj h).symm⟩

/-- Two qubits, a rotation and a measurement. -/
def rotatedPair : Circuit where
  name := "2 qubits"
  qubitCount := 2
  operations :=
    [⟨.unitary .h, [0], [], [], none⟩, ⟨.unitary .x, [1], [0], [], none⟩,
      ⟨.rotation .rz, [1], [], [⟨0x3fe0000000000000⟩], none⟩,
      ⟨.measure, [1], [], [], some ⟨"c", 0⟩⟩]
  registers := [⟨"c", 1, 0⟩]

theorem account_rotatedPair : Resources.account rotatedPair = .ok ⟨2, 1⟩ := by
  decide +kernel

theorem rotatedPair_shortBitcode : rotatedPair.ShortBitcode .default :=
  shortBitcode_of_length account_rotatedPair rfl
    (Bitcode.length_encode_lt_of_extent (by decide +kernel))

/-! ## From a program to its module -/

/-- Both renderings of a program give back its module. -/
theorem parse_decode_of_lower (h : c.lower o = .ok p) :
    Assembly.parse p.text = .ok p.module ∧ Bitcode.decode p.bitcode = .ok p.module := by
  obtain ⟨r, m, -, hm, hcheck, rfl⟩ := lower_eq_ok h
  obtain ⟨m', hdecode⟩ := read_of_checkRenderings hcheck
  obtain rfl := eq_of_decode_of_toModule hm hdecode
  exact ⟨parse_print_of_toModule hm, hdecode⟩

theorem parse_decode_of_rotatedPair :
    ∃ p, rotatedPair.lower .default = .ok p ∧ Assembly.parse p.text = .ok p.module ∧
      Bitcode.decode p.bitcode = .ok p.module := by
  have hlower := lower_of_toModule rotatedPair_shortBitcode account_rotatedPair rfl
  exact ⟨_, hlower, parse_decode_of_lower hlower⟩

end Circuit

end CircuitQir
