import CircuitQir.Proofs.Assembly.RoundTrip
import CircuitQir.Proofs.Bitcode.RoundTrip
import CircuitQir.Proofs.Lowering.EntryBlock
import CircuitQir.Proofs.Lowering.Names
/-!
# What a finished program is like

A program that has come about by calls meets every condition there is on modules once it is
finished: those of the bitcode (`finish_writable`, `finish_callsFit`), those of the text
(`finish_spellable`, `finish_hasNumbers`) and those of the checks before it is handed out
(`verify_finish`).
-/

namespace CircuitQir

open Ir

section

variable {ε α : Type} {condition : Bool} {e e' : ε}

theorem ensure_of (h : condition = true) (e : ε) : ensure condition e = .ok () :=
  if_pos h

theorem ensure_eq_ok_iff : ensure condition e = .ok () ↔ condition = true := by
  cases condition <;> simp [ensure]

theorem ensure_eq_error_iff : ensure condition e = .error e' ↔ condition = false ∧ e' = e := by
  cases condition <;> simp [ensure, eq_comm]

theorem ensure_bind_eq_ok_iff {f : Unit → Except ε α} {y : α} :
    ensure condition e >>= f = .ok y ↔ condition = true ∧ f () = .ok y := by
  cases condition with
  | false => exact iff_of_false nofun nofun
  | true =>
    have hgone : ensure true e >>= f = f () := rfl
    simp [hgone]

theorem ensure_bind_eq_error_iff {f : Unit → Except ε α} : ensure condition e >>= f = .error e' ↔
    condition = false ∧ e' = e ∨ condition = true ∧ f () = .error e' := by
  cases condition with
  | false =>
    have hstopped : ensure false e >>= f = .error e := rfl
    simp [hstopped, eq_comm]
  | true =>
    have hgone : ensure true e >>= f = f () := rfl
    simp [hgone]

end

namespace EntryBlock

variable {name : String} {b : EntryBlock} {r : Resources} {p : Profile}

/-! ## Attributes -/

/-- The group of irreversible intrinsics has the id that declarations refer to. -/
theorem attributeGroups_finish (b : EntryBlock) (r : Resources) (p : Profile) :
    (b.finish r p).attributeGroups = entryPointGroup r p ::
      if b.declarations.any (·.attributes = some 1) then [irreversibleGroup 1] else [] := by
  rw [finish, irreversibleId?, AttributeSet.groupId?_irreversible, Option.filter_some]
  split <;> rfl

/-- All texts in the attributes of a program are names. -/
theorem isName_strings : ∀ g ∈ (b.finish r p).attributeGroups, ∀ a ∈ g.attributes,
    ∀ s ∈ a.strings, Assembly.IsName s := by
  have hflag {key : String} (hkey : Assembly.IsName key) :
      ∀ s ∈ (Attribute.flag key).strings, Assembly.IsName s :=
    List.forall_mem_singleton.mpr hkey
  have hvalue {key value : String} (hkey : Assembly.IsName key)
      (hvalue : Assembly.IsName value) :
      ∀ s ∈ (Attribute.keyValue key value).strings, Assembly.IsName s :=
    List.forall_mem_cons.mpr ⟨hkey, List.forall_mem_singleton.mpr hvalue⟩
  intro g hg
  rw [attributeGroups_finish] at hg
  rcases List.mem_cons.mp hg with rfl | hg
  · simp only [entryPointGroup, List.forall_mem_cons]
    exact ⟨hflag (by decide), hflag (by decide), hvalue (by decide) p.isName_tag,
      hvalue (by decide) (Numeral.isName_ofNat _), hvalue (by decide) (Numeral.isName_ofNat _),
      nofun⟩
  · split at hg
    · obtain rfl := List.mem_singleton.mp hg
      exact List.forall_mem_singleton.mpr (hflag (by decide))
    · cases hg

/-! ## Calls -/

/-- A declared intrinsic is found under its name. -/
theorem declaration?_finish
    (hdeclared : ∀ d ∈ b.declarations, ∃ i ∈ Intrinsic.catalog, d = i.declaration)
    {i : Intrinsic} (hi : i ∈ Intrinsic.catalog) (hmem : i.declaration ∈ b.declarations) :
    (b.finish r p).declaration? i.name = some i.declaration := by
  cases hfind : (b.finish r p).declaration? i.name with
  | none =>
    have hnone := List.find?_eq_none.mp hfind i.declaration hmem
    exact absurd (decide_eq_true rfl) hnone
  | some d =>
    obtain ⟨j, hj, rfl⟩ := hdeclared d (List.mem_of_find?_eq_some hfind)
    have hname : j.name = i.name := by
      have hfound := List.find?_some hfind
      exact of_decide_eq_true hfound
    rw [Intrinsic.eq_of_name_eq hj hi hname]

/-- The instructions of a program are calls as declared, and after them one return. -/
theorem forall_instructions {P : Instruction → Prop} (h : b.Sound) (hret : P .ret)
    (hcall : ∀ i ∈ Intrinsic.catalog, i.declaration ∈ b.declarations → ∀ args, i.Takes args →
      P (.call i.name args)) :
    ∀ x ∈ b.instructions ++ [.ret], P x := by
  intro x hx
  rcases List.mem_append.mp hx with hx | hx
  · obtain ⟨i, args, rfl, hargs, hi, hdeclared⟩ := h.called x hx
    exact hcall i hi hdeclared args hargs
  · obtain rfl := List.mem_singleton.mp hx
    exact hret

theorem ret_notMem_instructions (h : b.Sound) : .ret ∉ b.instructions := by
  intro hret
  obtain ⟨i, args, heq, -⟩ := h.called .ret hret
  cases heq

/-! ## The bitcode -/

/-- The ids of declarations belong to groups: the only one there can be is that of irreversible
intrinsics, which is there if it is referred to. -/
theorem declarations_resolved
    (hdeclared : ∀ d ∈ b.declarations, ∃ i ∈ Intrinsic.catalog, d = i.declaration) :
    ∀ d ∈ (b.finish r p).declarations, ∀ id ∈ d.attributes,
      ∃ g ∈ (b.finish r p).attributeGroups, g.id = id := by
  intro d hd id hid
  obtain ⟨i, hi, rfl⟩ := hdeclared d hd
  obtain rfl := Intrinsic.groupId?_of_mem hi hid
  have hany : b.declarations.any (·.attributes = some 1) = true :=
    List.any_eq_true.mpr ⟨_, hd, decide_eq_true hid⟩
  refine ⟨irreversibleGroup 1, ?_, rfl⟩
  rw [attributeGroups_finish, if_pos hany]
  exact List.mem_cons_of_mem _ (List.mem_singleton_self _)

theorem functions_resolved (b : EntryBlock) (r : Resources) (p : Profile) :
    ∀ f ∈ (b.finish r p).functions, ∀ id ∈ f.attributes,
      ∃ g ∈ (b.finish r p).attributeGroups, g.id = id := by
  intro f hf id hid
  obtain rfl := List.mem_singleton.mp hf
  obtain rfl := Option.some.inj hid
  exact ⟨entryPointGroup r p, List.mem_cons_self, rfl⟩

theorem finish_writable (h : b.Sound) : (b.finish r p).Writable where
  declarations_resolved := declarations_resolved h.declared
  functions_resolved := functions_resolved b r p
  nulFree := fun g hg a ha => Assembly.nulFree_of_isName (isName_strings g hg a ha)
  shaped := by
    intro f hf
    obtain rfl := List.mem_singleton.mp hf
    refine ⟨?_, nofun⟩
    intro block hblock
    obtain rfl := List.mem_singleton.mp hblock
    rw [List.dropLast_concat]
    exact ret_notMem_instructions h

theorem instructions_finish : (b.finish r p).instructions = b.instructions ++ [.ret] := by
  simp [Module.instructions, finish]

theorem finish_callsFit (h : b.Sound) : (b.finish r p).CallsFit := by
  unfold Module.CallsFit
  rw [instructions_finish]
  refine forall_instructions h trivial ?_
  intro i hi hdeclared args hargs
  have hlength : i.params.length = args.length := by
    rw [← hargs.types, List.length_map]
  rw [Module.Fits, Module.arity?, declaration?_finish h.declared hi hdeclared, ← hlength]
  rfl

/-! ## The text -/

theorem finish_spellable (h : Built name b) (hname : Assembly.IsName name) :
    (b.finish r p).Spellable where
  sourceName := by
    show Assembly.Quotable b.sourceName
    rw [h.names.1]
    exact hname.quotable
  declarations := by
    intro d hd
    obtain ⟨i, hi, rfl⟩ := h.sound.declared d hd
    exact Intrinsic.isName_of_mem hi
  functions := by
    intro f hf
    obtain rfl := List.mem_singleton.mp hf
    refine ⟨?_, ?_, ?_⟩
    · show Assembly.IsName b.entryPoint
      rwa [h.names.2]
    · exact List.forall_mem_singleton.mpr (by decide : Assembly.IsName "entry")
    · refine List.forall_mem_singleton.mpr (forall_instructions h.sound nofun ?_)
      intro i hi _ args _ callee hcallee
      obtain rfl := Option.some.inj hcallee
      exact Intrinsic.isName_of_mem hi
  attributes := fun g hg a ha s hs => (isName_strings g hg a ha s hs).quotable
  flags := by
    show ∀ f ∈ moduleFlags, Assembly.Quotable f.key
    decide

theorem isNaN_of_isFinite {d : Double} (h : d.isFinite = true) : d.isNaN = false := by
  have hlt : d.magnitude < Magnitude.infinity := of_decide_eq_true h
  exact decide_eq_false (Nat.lt_asymm hlt)

theorem finish_hasNumbers (h : b.Sound) :
    ∀ f ∈ (b.finish r p).functions, Assembly.Draft.HasNumbers f.blocks := by
  refine List.forall_mem_singleton.mpr (List.forall_mem_singleton.mpr ?_)
  refine forall_instructions h nofun ?_
  intro i _ _ args hargs o ho
  cases o with
  | double d => exact isNaN_of_isFinite (hargs.finite d ho)
  | _ => trivial

/-! ## The checks -/

/-- A block may begin with the initialization, go on with calls and end with the return. -/
theorem checkEnds_concat_ret {is : List Instruction} {args : List Operand}
    (hhead : is.head? = some (.call Intrinsic.initialization.name args)) (hret : .ret ∉ is) :
    checkEnds (is ++ [.ret]) = .ok () := by
  have hnone : is.filter Instruction.isTerminator = [] := by
    refine List.filter_eq_nil_iff.mpr ?_
    intro x hx hterminator
    cases x with
    | call callee args => cases hterminator
    | ret => exact hret hx
  have hfirst : (is ++ [Instruction.ret]).head?.bind Instruction.callee? =
      some Intrinsic.initialization.name := by
    rw [List.head?_append, hhead]
    rfl
  have hlast : (is ++ [Instruction.ret]).getLast?.any Instruction.isTerminator = true := by
    rw [List.getLast?_concat]
    rfl
  have hcount : ((is ++ [Instruction.ret]).filter Instruction.isTerminator).length = 1 := by
    rw [List.filter_append, hnone]
    rfl
  unfold checkEnds
  rw [bind_of_ok (ensure_of (decide_eq_true hfirst) _), bind_of_ok (ensure_of hlast _)]
  exact ensure_of (decide_eq_true hcount) _

/-- What is wrong with a number that is declared but not the one needed. -/
def misdeclared (key : String) (declared needed : UInt32) : Malformation :=
  .attributeValue key (some (Numeral.ofNat declared.toNat)) (Numeral.ofNat needed.toNat)

/-- Numbers are compared as texts, which are different for different numbers. -/
theorem checkNumber_of_value? {g : AttributeGroup} {key : String} {declared needed : UInt32}
    (h : g.value? key = some (Numeral.ofNat declared.toNat)) : checkNumber g key needed =
      ensure (declared = needed) (misdeclared key declared needed) := by
  simp only [checkNumber, h, Option.some_inj, Numeral.ofNat_inj, UInt32.toNat_inj]
  rfl

theorem groupOf?_finish {f : Function} (hf : f.attributes = some 0) :
    (b.finish r p).groupOf? f = some (entryPointGroup r p) := by
  rw [Module.groupOf?, hf]
  rfl

theorem requiredQubits_entryPointGroup (r : Resources) (p : Profile) :
    (entryPointGroup r p).value? "requiredQubits" = some (Numeral.ofNat r.qubits.toNat) := by
  simp [AttributeGroup.value?, entryPointGroup]

theorem requiredResults_entryPointGroup (r : Resources) (p : Profile) :
    (entryPointGroup r p).value? "requiredResults" = some (Numeral.ofNat r.results.toNat) := by
  simp [AttributeGroup.value?, entryPointGroup]

/-- Of the attributes of a program, the checks can only miss the numbers. -/
theorem checkAttributes_finish {f : Function} (hf : f.attributes = some 0) (needed : Resources) :
    checkAttributes (b.finish r p) f needed = (do
      ensure (r.qubits = needed.qubits) (misdeclared "requiredQubits" r.qubits needed.qubits)
      ensure (r.results = needed.results)
        (misdeclared "requiredResults" r.results needed.results)) := by
  have hflag : (entryPointGroup r p).hasFlag "entry_point" = true := by
    simp [AttributeGroup.hasFlag, entryPointGroup]
  simp only [checkAttributes, groupOf?_finish hf,
    checkNumber_of_value? (requiredQubits_entryPointGroup r p),
    checkNumber_of_value? (requiredResults_entryPointGroup r p)]
  exact bind_of_ok (ensure_of hflag _) _

theorem checkNames_of_nodup : ∀ {seen : List String} {ds : List Declaration},
    (ds.map Declaration.name).Nodup → (∀ d ∈ ds, d.name ∉ seen) → checkNames seen ds = .ok ()
  | _, [], _, _ => rfl
  | seen, d :: ds, hnodup, hseen => by
    rw [List.map_cons, List.nodup_cons] at hnodup
    have hnew : seen.contains d.name = false := by
      simpa using hseen d (by simp)
    rw [checkNames, hnew, if_neg Bool.false_ne_true]
    refine checkNames_of_nodup hnodup.2 ?_
    intro e he hmem
    rcases List.mem_cons.mp hmem with hname | hmem
    · exact hnodup.1 (hname ▸ List.mem_map_of_mem he)
    · exact hseen e (List.mem_cons_of_mem _ he) hmem

theorem checkCall_finish (h : b.Sound) :
    ∀ x ∈ b.instructions ++ [.ret], checkCall (b.finish r p) x = .ok () := by
  refine forall_instructions h rfl ?_
  intro i hi hdeclared args hargs
  simp only [checkCall, declaration?_finish h.declared hi hdeclared]
  exact ensure_of (decide_eq_true hargs.types) _

theorem verify_of_single {m : Module} {f : Function} {block : Block} (hf : m.functions = [f])
    (hblock : f.blocks = [block]) : verify m r = (do
      checkEnds block.instructions
      checkAttributes m f r
      checkNames [] m.declarations
      block.instructions.forM (checkCall m)) := by
  simp only [verify, hf, hblock]

/-- No check of a program can fail. -/
theorem verify_finish (h : Built name b) : verify (b.finish r p) r = .ok () := by
  have hends := checkEnds_concat_ret h.head (ret_notMem_instructions h.sound)
  have hnames : checkNames [] (b.finish r p).declarations = .ok () :=
    checkNames_of_nodup h.sound.nodup fun _ _ => List.not_mem_nil
  rw [verify_of_single rfl rfl, bind_of_ok hends, checkAttributes_finish rfl,
    ensure_of (decide_eq_true rfl), ensure_of (decide_eq_true rfl)]
  exact (bind_of_ok hnames _).trans (forM_ok (checkCall_finish h.sound))

end EntryBlock

end CircuitQir
