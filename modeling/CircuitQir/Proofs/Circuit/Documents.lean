import CircuitQir.Circuit.Json
import CircuitQir.Proofs.Json.Documents
import CircuitQir.Proofs.Json.Structures
import CircuitQir.Proofs.Lists
/-!
# Circuits are read back from their documents

The document of a circuit gives back the circuit, except that each parameter is the double that its
digits come to step by step (`Circuit.ofDocument_of_isFinite`), which is not far off
(`Json.isNear_reread`) but need not be the same. If a parameter is not finite, the document has a
null in its place and cannot be read at all (`Circuit.ofDocument_of_not_isFinite`). For each
structure, the object that it is written as has the fields that its decoder knows, so what is left
to see is that each decoder reads what is written under the name of its field.
-/

namespace CircuitQir

open Json (Decoder Field Shape Tree)

/-! ## Names and numbers -/

theorem Gate.decoder_name (g : Gate) : decoder (.string (some g.name)) = .ok g :=
  Decoder.named_name (by decide) (by cases g <;> decide)

theorem Rotation.decoder_name (r : Rotation) : decoder (.string (some r.name)) = .ok r :=
  Decoder.named_name (by decide) (by cases r <;> decide)

theorem TimeUnit.decoder_name (u : TimeUnit) : decoder (.string (some u.name)) = .ok u :=
  Decoder.named_name (by decide) (by cases u <;> decide)

theorem BasisState.decoder_name (s : BasisState) : decoder (.string (some s.name)) = .ok s :=
  Decoder.named_name (by decide) (by cases s <;> decide)

theorem ControlFlow.decoder_name (f : ControlFlow) : decoder (.string (some f.name)) = .ok f :=
  Decoder.named_name (by decide) (by cases f <;> decide)

theorem uint32_jsonOfUInt32 (n : UInt32) : Decoder.uint32 (jsonOfUInt32 n).tree = .ok n := by
  have hn := n.toNat_lt
  have hnumber := Json.numberOf_natural (Nat.lt_trans hn (by decide : 2 ^ 32 < 2 ^ 64))
  show Decoder.uint32 (.number (Json.numberOf false _ [] none)) = _
  rw [hnumber, Decoder.uint32, if_pos hn, UInt32.ofNat_toNat]

theorem double_of_finite {d : Double} (hd : d.isFinite = true) :
    Decoder.double (Json.double d).tree = .ok (Json.reread d) := by
  rw [Json.tree, if_pos hd]
  rfl

/-- A double that is not finite has become a null, which is no number. -/
theorem double_of_not_finite {d : Double} (hd : ¬ d.isFinite = true) :
    ∃ e, Decoder.double (Json.double d).tree = .error e := by
  rw [Json.tree, if_neg hd]
  exact ⟨_, rfl⟩

theorem OperationKind.decoder_toJson (k : OperationKind) : decoder k.toJson.tree = .ok k := by
  cases k with
  | unitary g => exact Decoder.variant_value rfl (bind_of_ok (Gate.decoder_name g) _)
  | adjoint g => exact Decoder.variant_value rfl (bind_of_ok (Gate.decoder_name g) _)
  | rotation r => exact Decoder.variant_value rfl (bind_of_ok (Rotation.decoder_name r) _)
  | delay u => exact Decoder.variant_value rfl (bind_of_ok (TimeUnit.decoder_name u) _)
  | prepare s => exact Decoder.variant_value rfl (bind_of_ok (BasisState.decoder_name s) _)
  | measure | reset | barrier => rfl
  | controlFlow f => exact Decoder.variant_value rfl (bind_of_ok (ControlFlow.decoder_name f) _)
  | opaqueGate name => exact Decoder.variant_value rfl rfl

/-! ## Structures -/

/-- The value of a list that is left out where it is empty. -/
def listValue (items : List Json) : Option Tree :=
  if items.isEmpty then none else some (Json.array items).tree

section

variable {α β : Type} {d : Decoder β} {toJson : α → Json} {g : α → β} {xs : List α}

theorem list_map (h : ∀ x ∈ xs, d (toJson x).tree = .ok (g x)) :
    Decoder.list d (Json.array (xs.map toJson)).tree = .ok (xs.map g) := by
  rw [Json.tree, Json.trees_eq_map, List.map_map]
  exact Decoder.list_ok h

theorem list_of_listValue (h : ∀ x ∈ xs, d (toJson x).tree = .ok (g x)) :
    ∀ t ∈ listValue (xs.map toJson), Decoder.list d t = .ok (xs.map g) := by
  intro t ht
  unfold listValue at ht
  split at ht
  · cases ht
  · obtain rfl := Option.some.inj ht
    exact list_map h

/-- A list that was left out is empty by default. -/
theorem getD_listValue {s : Shape} {fields : List (Field × Option Tree)} {name : String}
    (hfields : s.Filled fields)
    (hmem : (.optional name (Decoder.list d), listValue (xs.map toJson)) ∈ fields)
    (h : ∀ x ∈ xs, d (toJson x).tree = .ok (g x)) :
    (Shape.given fields).getD name (Decoder.list d) [] = .ok (xs.map g) := by
  refine hfields.getD_left_out hmem (fun hnone => ?_) (list_of_listValue h)
  have hempty : xs = [] := by simpa [listValue] using hnone
  rw [hempty, List.map_nil]

end

/-- Numbers of 32 bits are read back. -/
theorem getD_numbers {s : Shape} {fields : List (Field × Option Tree)} {name : String}
    {ns : List UInt32} (hfields : s.Filled fields)
    (hmem : (.optional name (Decoder.list Decoder.uint32), listValue (ns.map jsonOfUInt32)) ∈
      fields) :
    (Shape.given fields).getD name (Decoder.list Decoder.uint32) [] = .ok ns :=
  (getD_listValue (g := id) hfields hmem fun n _ => uint32_jsonOfUInt32 n).trans
    (congrArg Except.ok (List.map_id ns))

namespace ResultTarget

/-- The fields of a result, as they are written. -/
def fields (r : ResultTarget) : List (Field × Option Tree) :=
  [(.mandatory "register" Decoder.string, some (Json.string r.register).tree),
    (.mandatory "bit" Decoder.uint32, some (jsonOfUInt32 r.bit).tree)]

theorem filled_fields (r : ResultTarget) : shape.Filled r.fields where
  fields_eq := rfl
  nodup := by decide
  accepts := by
    simp only [fields, List.forall_mem_cons]
    exact ⟨Field.accepts_mandatory _ rfl, Field.accepts_mandatory _ (uint32_jsonOfUInt32 r.bit),
      nofun⟩

theorem decoder_toJson (r : ResultTarget) : decoder r.toJson.tree = .ok r := by
  have h := r.filled_fields
  have hregister : (Shape.given r.fields).get "register" Decoder.string = .ok r.register :=
    h.get (.head _)
  have hbit : (Shape.given r.fields).get "bit" Decoder.uint32 = .ok r.bit :=
    (h.get (.tail _ (.head _))).trans (uint32_jsonOfUInt32 r.bit)
  refine (bind_of_ok h.members _).trans ?_
  exact (bind_of_ok hregister _).trans ((bind_of_ok hbit _).trans rfl)

end ResultTarget

namespace Register

/-- The fields of a register, as they are written. -/
def fields (r : Register) : List (Field × Option Tree) :=
  [(.mandatory "id" Decoder.string, some (Json.string r.id).tree),
    (.mandatory "size" Decoder.uint32, some (jsonOfUInt32 r.size).tree),
    (.mandatory "offset" Decoder.uint32, some (jsonOfUInt32 r.offset).tree)]

theorem filled_fields (r : Register) : shape.Filled r.fields where
  fields_eq := rfl
  nodup := by decide
  accepts := by
    simp only [fields, List.forall_mem_cons]
    exact ⟨Field.accepts_mandatory _ rfl, Field.accepts_mandatory _ (uint32_jsonOfUInt32 r.size),
      Field.accepts_mandatory _ (uint32_jsonOfUInt32 r.offset), nofun⟩

theorem decoder_toJson (r : Register) : decoder r.toJson.tree = .ok r := by
  have h := r.filled_fields
  have hid : (Shape.given r.fields).get "id" Decoder.string = .ok r.id := h.get (.head _)
  have hsize : (Shape.given r.fields).get "size" Decoder.uint32 = .ok r.size :=
    (h.get (.tail _ (.head _))).trans (uint32_jsonOfUInt32 r.size)
  have hoffset : (Shape.given r.fields).get "offset" Decoder.uint32 = .ok r.offset :=
    (h.get (.tail _ (.tail _ (.head _)))).trans (uint32_jsonOfUInt32 r.offset)
  refine (bind_of_ok h.members _).trans ((bind_of_ok hid _).trans ?_)
  exact (bind_of_ok hsize _).trans ((bind_of_ok hoffset _).trans rfl)

end Register

namespace Operation

/-- All parameters are finite. -/
def IsFinite (o : Operation) : Prop := ∀ p ∈ o.params, p.isFinite = true

/-- The operation that is read from a document of an operation: its parameters are read from their
digits. -/
def reread (o : Operation) : Operation := { o with params := o.params.map Json.reread }

/-- The fields of an operation, as they are written. -/
def fields (o : Operation) : List (Field × Option Tree) :=
  [(.mandatory "kind" OperationKind.decoder, some o.kind.toJson.tree),
    (.optional "targets" numbers, listValue (o.targets.map jsonOfUInt32)),
    (.optional "controls" numbers, listValue (o.controls.map jsonOfUInt32)),
    (.optional "params" doubles, listValue (o.params.map Json.double)),
    (.optional "result" (Decoder.nullable ResultTarget.decoder),
      o.result.map fun r => r.toJson.tree)]

/-- An operation is read back if each of its parameters is. -/
theorem reread_eq_iff {o : Operation} : o.reread = o ↔ ∀ p ∈ o.params, Json.reread p = p := by
  rw [← map_eq_self_iff]
  refine ⟨congrArg params, fun h => ?_⟩
  rw [reread, h]

theorem tree_toJson (o : Operation) : o.toJson.tree = Shape.written o.fields := by
  obtain ⟨kind, targets, controls, params, result⟩ := o
  -- Each list and the result is there or left out.
  cases targets <;> cases controls <;> cases params <;> cases result <;> rfl

theorem nullable_result (result : Option ResultTarget) :
    ∀ t ∈ result.map fun r => r.toJson.tree,
      Decoder.nullable ResultTarget.decoder t = .ok result := by
  intro t ht
  obtain ⟨r, rfl, rfl⟩ := Option.map_eq_some_iff.mp ht
  show (ResultTarget.decoder r.toJson.tree).map some = _
  rw [r.decoder_toJson]
  rfl

theorem filled_fields {o : Operation} (hparams : o.IsFinite) : shape.Filled o.fields where
  fields_eq := rfl
  nodup := by decide
  accepts := by
    simp only [fields, List.forall_mem_cons]
    exact ⟨Field.accepts_mandatory _ (OperationKind.decoder_toJson o.kind),
      Field.accepts_left_out _ (list_of_listValue (g := id) fun n _ => uint32_jsonOfUInt32 n),
      Field.accepts_left_out _ (list_of_listValue (g := id) fun n _ => uint32_jsonOfUInt32 n),
      Field.accepts_left_out _ (list_of_listValue fun p hp => double_of_finite (hparams p hp)),
      Field.accepts_left_out _ (nullable_result o.result), nofun⟩

theorem decoder_toJson {o : Operation} (hparams : o.IsFinite) :
    decoder o.toJson.tree = .ok o.reread := by
  have h := filled_fields hparams
  have hkind : (Shape.given o.fields).get "kind" OperationKind.decoder = .ok o.kind :=
    (h.get (.head _)).trans (OperationKind.decoder_toJson o.kind)
  have htargets : (Shape.given o.fields).getD "targets" numbers [] = .ok o.targets :=
    getD_numbers h (.tail _ (.head _))
  have hcontrols : (Shape.given o.fields).getD "controls" numbers [] = .ok o.controls :=
    getD_numbers h (.tail _ (.tail _ (.head _)))
  have hdoubles : (Shape.given o.fields).getD "params" doubles [] =
      .ok (o.params.map Json.reread) :=
    getD_listValue h (.tail _ (.tail _ (.tail _ (.head _)))) fun p hp =>
      double_of_finite (hparams p hp)
  have hresult : (Shape.given o.fields).getD "result" (Decoder.nullable ResultTarget.decoder) none =
      .ok o.result :=
    h.getD_left_out (.tail _ (.tail _ (.tail _ (.tail _ (.head _)))))
      (fun hnone => (Option.map_eq_none_iff.mp hnone).symm) (nullable_result o.result)
  rw [tree_toJson]
  refine (bind_of_ok h.members _).trans ((bind_of_ok hkind _).trans ?_)
  refine (bind_of_ok htargets _).trans ((bind_of_ok hcontrols _).trans ?_)
  exact (bind_of_ok hdoubles _).trans ((bind_of_ok hresult _).trans rfl)

/-- An operation with a parameter that is not finite is not read. -/
theorem decoder_error {o : Operation} (hparams : ¬ o.IsFinite) :
    ∃ e, decoder o.toJson.tree = .error e := by
  obtain ⟨p, hp, hfinite⟩ : ∃ p ∈ o.params, ¬ p.isFinite = true := by
    simpa [IsFinite] using hparams
  have hvalue : listValue (o.params.map Json.double) =
      some (Json.array (o.params.map Json.double)).tree := by
    rw [listValue, if_neg (by simpa using List.ne_nil_of_mem hp)]
  have hmem : (Field.optional "params" doubles, listValue (o.params.map Json.double)) ∈ o.fields :=
    .tail _ (.tail _ (.tail _ (.head _)))
  rw [hvalue] at hmem
  have hlist : ∃ e, doubles (Json.array (o.params.map Json.double)).tree = .error e := by
    rw [Json.tree, Json.trees_eq_map]
    exact Decoder.list_error (List.mem_map_of_mem (List.mem_map_of_mem hp))
      (double_of_not_finite hfinite)
  obtain ⟨e, he⟩ := Shape.members_error (s := shape) rfl (by decide) hmem
    (Field.check_error "params" hlist)
  rw [tree_toJson]
  exact ⟨e, bind_of_error he _⟩

end Operation

/-! ## Circuits -/

namespace Circuit

/-- All parameters of all operations are finite. -/
def IsFinite (c : Circuit) : Prop := ∀ o ∈ c.operations, o.IsFinite

/-- The circuit that is read from the document of a circuit. -/
def reread (c : Circuit) : Circuit := { c with operations := c.operations.map Operation.reread }

/-- The fields of a circuit, as they are written. -/
def fields (c : Circuit) : List (Field × Option Tree) :=
  [(.optional "name" Decoder.string, some (Json.string c.name).tree),
    (.mandatory "numQubits" Decoder.uint32, some (jsonOfUInt32 c.qubitCount).tree),
    (.optional "operations" (Decoder.list Operation.decoder),
      some (Json.array (c.operations.map Operation.toJson)).tree),
    (.optional "registers" (Decoder.list Register.decoder),
      some (Json.array (c.registers.map Register.toJson)).tree)]

variable {c : Circuit}

theorem list_operations (hfinite : c.IsFinite) :
    Decoder.list Operation.decoder (Json.array (c.operations.map Operation.toJson)).tree =
      .ok (c.operations.map Operation.reread) :=
  list_map fun _ ho => Operation.decoder_toJson (hfinite _ ho)

theorem list_registers (c : Circuit) :
    Decoder.list Register.decoder (Json.array (c.registers.map Register.toJson)).tree =
      .ok c.registers :=
  (list_map (g := id) fun r _ => r.decoder_toJson).trans
    (congrArg Except.ok (List.map_id c.registers))

theorem filled_fields (hfinite : c.IsFinite) : shape.Filled c.fields where
  fields_eq := rfl
  nodup := by decide
  accepts := by
    simp only [fields, List.forall_mem_cons]
    exact ⟨Field.accepts_optional _ rfl,
      Field.accepts_mandatory _ (uint32_jsonOfUInt32 c.qubitCount),
      Field.accepts_optional _ (list_operations hfinite),
      Field.accepts_optional _ (list_registers c), nofun⟩

theorem decoder_toJson (hfinite : c.IsFinite) : decoder c.toJson.tree = .ok c.reread := by
  have h := filled_fields hfinite
  have hname : (Shape.given c.fields).getD "name" Decoder.string "" = .ok c.name :=
    h.getD "" (.head _)
  have hcount : (Shape.given c.fields).get "numQubits" Decoder.uint32 = .ok c.qubitCount :=
    (h.get (.tail _ (.head _))).trans (uint32_jsonOfUInt32 c.qubitCount)
  have hoperations : (Shape.given c.fields).getD "operations" (Decoder.list Operation.decoder) [] =
      .ok (c.operations.map Operation.reread) :=
    (h.getD [] (.tail _ (.tail _ (.head _)))).trans (list_operations hfinite)
  have hregisters : (Shape.given c.fields).getD "registers" (Decoder.list Register.decoder) [] =
      .ok c.registers :=
    (h.getD [] (.tail _ (.tail _ (.tail _ (.head _))))).trans (list_registers c)
  refine (bind_of_ok h.members _).trans ((bind_of_ok hname _).trans ?_)
  refine (bind_of_ok hcount _).trans ((bind_of_ok hoperations _).trans ?_)
  exact (bind_of_ok hregisters _).trans rfl

theorem decoder_error (hfinite : ¬ c.IsFinite) : ∃ e, decoder c.toJson.tree = .error e := by
  obtain ⟨o, ho, hparams⟩ : ∃ o ∈ c.operations, ¬ o.IsFinite := by
    simpa [IsFinite] using hfinite
  have hlist : ∃ e, Decoder.list Operation.decoder
      (Json.array (c.operations.map Operation.toJson)).tree = .error e := by
    rw [Json.tree, Json.trees_eq_map]
    exact Decoder.list_error (List.mem_map_of_mem (List.mem_map_of_mem ho))
      (Operation.decoder_error hparams)
  obtain ⟨e, he⟩ : ∃ e, shape.members (Shape.written c.fields) = .error e :=
    Shape.members_error rfl (by decide) (.tail _ (.tail _ (.head _)))
      (Field.check_error "operations" hlist)
  exact ⟨e, bind_of_error he _⟩

/-- A circuit is read back if each parameter of each of its operations is. -/
theorem reread_eq_iff :
    c.reread = c ↔ ∀ o ∈ c.operations, ∀ p ∈ o.params, Json.reread p = p := by
  have hoperations : c.reread = c ↔ c.operations.map Operation.reread = c.operations :=
    ⟨congrArg operations, fun h => by rw [reread, h]⟩
  rw [hoperations, map_eq_self_iff]
  exact forall₂_congr fun _ _ => Operation.reread_eq_iff

theorem ofDocument_document_eq (c : Circuit) : ofDocument c.document = decoder c.toJson.tree :=
  Json.decode_pretty decoder c.toJson

theorem ofDocument_of_isFinite (hfinite : c.IsFinite) : ofDocument c.document = .ok c.reread :=
  (ofDocument_document_eq c).trans (decoder_toJson hfinite)

theorem ofDocument_of_not_isFinite (hfinite : ¬ c.IsFinite) :
    ∃ e, ofDocument c.document = .error e := by
  rw [ofDocument_document_eq]
  exact decoder_error hfinite

/-- From the document of a circuit a circuit is read exactly if all parameters are finite. It is
the same circuit but for its parameters, which have become what their digits come to step by step:
finite doubles of the same signs, at most three doubles away. So it is the same circuit exactly if
this changes none of them, as it changes none whose digits and power of ten are doubles
themselves. -/
theorem ofDocument_document (c : Circuit) :
    (ofDocument c.document = .ok c.reread ↔ c.IsFinite) ∧
      ((∃ e, ofDocument c.document = .error e) ↔ ¬ c.IsFinite) ∧
      (c.IsFinite → ∀ o ∈ c.operations, ∀ p ∈ o.params, Json.IsNear (Json.reread p) p) ∧
      (ofDocument c.document = .ok c ↔
        c.IsFinite ∧ ∀ o ∈ c.operations, ∀ p ∈ o.params, Json.reread p = p) ∧
      ((∀ o ∈ c.operations, ∀ p ∈ o.params, Json.IsExact p) → ofDocument c.document = .ok c) := by
  have hiff : ofDocument c.document = .ok c ↔
      c.IsFinite ∧ ∀ o ∈ c.operations, ∀ p ∈ o.params, Json.reread p = p := by
    rw [← reread_eq_iff]
    by_cases hfinite : c.IsFinite
    · simp [ofDocument_of_isFinite hfinite, hfinite]
    · obtain ⟨e, he⟩ := ofDocument_of_not_isFinite hfinite
      simp [he, hfinite]
  have hnear (hfinite : c.IsFinite) : ∀ o ∈ c.operations, ∀ p ∈ o.params,
      Json.IsNear (Json.reread p) p := fun o ho p hp => Json.isNear_reread (hfinite o ho p hp)
  refine ⟨?_, ?_, hnear, hiff, fun hexact => hiff.mpr ⟨?_, ?_⟩⟩
  · by_cases hfinite : c.IsFinite
    · exact iff_of_true (ofDocument_of_isFinite hfinite) hfinite
    · obtain ⟨e, he⟩ := ofDocument_of_not_isFinite hfinite
      exact iff_of_false (by simp [he]) hfinite
  · refine ⟨?_, ofDocument_of_not_isFinite⟩
    rintro ⟨e, he⟩ hfinite
    cases he.symm.trans (ofDocument_of_isFinite hfinite)
  · exact fun o ho p hp => (hexact o ho p hp).finite
  · exact fun o ho p hp => (hexact o ho p hp).reread_eq

/-- A circuit of one rotation about the z axis. -/
def rotated (angle : Double) : Circuit :=
  ⟨"rotated", 1, [⟨.rotation .rz, [0], [], [angle], none⟩], []⟩

/-- Minus zero is read back with its sign. -/
theorem ofDocument_document_minusZero :
    ofDocument (rotated ⟨0x8000000000000000⟩).document = .ok (rotated ⟨0x8000000000000000⟩) := by
  refine (ofDocument_document _).2.2.2.2 ?_
  simp only [rotated, List.forall_mem_singleton]
  decide +kernel

/-- The text of an angle, the twenty-third part of a half turn, is that of no other double, but
another one is read from it. -/
theorem ofDocument_rotated :
    (rotated ⟨0x3fc17bd03a9ebb32⟩).IsFinite ∧
      ofDocument (rotated ⟨0x3fc17bd03a9ebb32⟩).document = .ok (rotated ⟨0x3fc17bd03a9ebb31⟩) ∧
      ofDocument (rotated ⟨0x3fc17bd03a9ebb32⟩).document ≠
        .ok (rotated ⟨0x3fc17bd03a9ebb32⟩) := by
  have hfinite : (rotated ⟨0x3fc17bd03a9ebb32⟩).IsFinite := by
    simp only [IsFinite, Operation.IsFinite, rotated, List.forall_mem_singleton]
    decide
  have hreread : Json.reread ⟨0x3fc17bd03a9ebb32⟩ = ⟨0x3fc17bd03a9ebb31⟩ := by decide +kernel
  have hread : ofDocument (rotated ⟨0x3fc17bd03a9ebb32⟩).document =
      .ok (rotated ⟨0x3fc17bd03a9ebb31⟩) := by
    rw [ofDocument_of_isFinite hfinite, ← hreread]
    rfl
  refine ⟨hfinite, hread, ?_⟩
  rw [hread, ne_eq, Except.ok.injEq]
  decide

end Circuit

end CircuitQir
