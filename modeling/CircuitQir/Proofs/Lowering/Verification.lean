import CircuitQir.Proofs.Lowering.Calls
import CircuitQir.Proofs.Scans
/-!
# What the checks find in programs

A program of any calls is checked against resources that need not be those it declares. It has the
shape that the checks ask for, and each name it calls is declared as the catalog has it. So the
checks come down to three questions (`verify_programOf_eq`): are the qubits those needed, are the
results, and do the arguments of every call have the types of the parameters.
-/

namespace CircuitQir

open Ir

namespace Call

/-- The intrinsic has parameters of the types of the arguments. -/
def Fits (c : Call) : Prop := c.args.map Operand.type = c.intrinsic.params

instance (c : Call) : Decidable c.Fits := inferInstanceAs (Decidable (_ = _))

/-- What is checked of a call in a program that declares what it calls. -/
def check (c : Call) : Except Malformation Unit :=
  ensure c.Fits (.argumentTypes c.intrinsic.name)

/-- Calls are checked up to the first one that does not fit. -/
theorem scans_check : Scans (fun _ rest => rest.forM check) (fun cs => ∀ c ∈ cs, c.Fits)
    (fun _ c x => ¬c.Fits ∧ x = .argumentTypes c.intrinsic.name) := by
  have hsound (cs : List Call) : (∀ c ∈ cs, c.check = .ok ()) ↔ ∀ c ∈ cs, c.Fits := by
    simp only [check, ensure_eq_ok_iff, decide_eq_true_eq]
  have hflaw (c : Call) (x : Malformation) :
      c.check = .error x ↔ ¬c.Fits ∧ x = .argumentTypes c.intrinsic.name := by
    rw [check, ensure_eq_error_iff, decide_eq_false_iff_not]
  simpa only [hsound, hflaw] using scans_forM check

theorem forM_check_eq_ok_iff {cs : List Call} :
    cs.forM check = .ok () ↔ ∀ c ∈ cs, c.Fits :=
  scans_check.eq_ok_iff.trans (and_iff_left rfl)

theorem forM_check_eq_error_iff {cs : List Call} {x : Malformation} :
    cs.forM check = .error x ↔ ∃ before c after, cs = before ++ c :: after ∧
      (∀ d ∈ before, d.Fits) ∧ ¬c.Fits ∧ x = .argumentTypes c.intrinsic.name :=
  scans_check.eq_error_iff

end Call

namespace EntryBlock

section

variable (sourceName entryPoint : String) (calls : List Call) (r : Resources) (p : Profile)

/-! ## The checks -/

theorem checkEnds_callAll_start :
    checkEnds (((start sourceName entryPoint).callAll calls).instructions ++ [.ret]) = .ok () := by
  rw [instructions_callAll_start]
  refine checkEnds_concat_ret rfl ?_
  intro hret
  obtain ⟨c, -, hc⟩ := List.mem_map.mp hret
  cases hc

/-- A call is checked against the catalog: what is declared under its name is what it calls. -/
theorem checkCall_programOf {c : Call} (hc : c ∈ Call.initialization :: calls) :
    checkCall (programOf sourceName entryPoint calls r p) c.instruction = c.check := by
  have hdeclares := declares_callAll_start sourceName entryPoint calls
  have hmem := hdeclares.mem_iff.mpr ⟨c.intrinsic, List.mem_map_of_mem hc, rfl⟩
  have hfound : (programOf sourceName entryPoint calls r p).declaration? c.intrinsic.name =
      some c.intrinsic.declaration := declaration?_finish hdeclares.exists_eq c.listed hmem
  simp only [checkCall, Call.instruction, hfound]
  rfl

/-- The calls of a program are checked one after the other, and the return passes. -/
theorem forM_checkCall_programOf : ∀ {cs : List Call}, cs ⊆ Call.initialization :: calls →
    (cs.map Call.instruction ++ [Instruction.ret]).forM
      (checkCall (programOf sourceName entryPoint calls r p)) = cs.forM Call.check
  | [], _ => rfl
  | c :: cs, hcs => by
    obtain ⟨hc, hcs⟩ := List.cons_subset.mp hcs
    have hrest := forM_checkCall_programOf hcs
    show (checkCall _ c.instruction >>= fun _ => _) = (c.check >>= fun _ => cs.forM Call.check)
    rw [checkCall_programOf sourceName entryPoint calls r p hc, ← hrest]
    rfl

/-- The checks compare the resources, and the arguments of the calls with the parameters. -/
theorem verify_programOf_eq (needed : Resources) :
    verify (programOf sourceName entryPoint calls r p) needed = (do
      ensure (r.qubits = needed.qubits) (misdeclared "requiredQubits" r.qubits needed.qubits)
      ensure (r.results = needed.results)
        (misdeclared "requiredResults" r.results needed.results)
      calls.forM Call.check) := by
  have hends := checkEnds_callAll_start sourceName entryPoint calls
  have hnames : checkNames [] (programOf sourceName entryPoint calls r p).declarations = .ok () :=
    checkNames_of_nodup (declares_callAll_start sourceName entryPoint calls).nodup
      fun _ _ => List.not_mem_nil
  have hcalls : (((start sourceName entryPoint).callAll calls).instructions ++
      [Instruction.ret]).forM (checkCall (programOf sourceName entryPoint calls r p)) =
        calls.forM Call.check := by
    rw [instructions_callAll_start, forM_checkCall_programOf _ _ _ _ _ (List.Subset.refl _)]
    exact bind_of_ok (ensure_of (decide_eq_true rfl) _) _
  rw [programOf] at hnames hcalls ⊢
  rw [verify_of_single rfl rfl, bind_of_ok hends, checkAttributes_finish rfl, hcalls]
  simp only [bind_of_ok hnames, bind_assoc]

end

/-! ## Their outcome -/

/-- The first thing wrong with a program that declares some resources where others are needed, and
makes some calls. -/
inductive Mismatch (declared needed : Resources) (calls : List Call) : Malformation → Prop
  | qubits (h : declared.qubits ≠ needed.qubits) : Mismatch declared needed calls
      (misdeclared "requiredQubits" declared.qubits needed.qubits)
  | results (hqubits : declared.qubits = needed.qubits) (h : declared.results ≠ needed.results) :
    Mismatch declared needed calls
      (misdeclared "requiredResults" declared.results needed.results)
  | arguments {before after : List Call} {c : Call} (hqubits : declared.qubits = needed.qubits)
    (hresults : declared.results = needed.results) (hcalls : calls = before ++ c :: after)
    (hbefore : ∀ d ∈ before, d.Fits) (hc : ¬c.Fits) :
    Mismatch declared needed calls (.argumentTypes c.intrinsic.name)

section

variable {sourceName entryPoint : String} {calls : List Call} {declared needed : Resources}
  {p : Profile}

theorem verify_programOf_eq_ok_iff :
    verify (programOf sourceName entryPoint calls declared p) needed = .ok () ↔
      declared = needed ∧ ∀ c ∈ calls, c.Fits := by
  have hresources : declared = needed ↔
      declared.qubits = needed.qubits ∧ declared.results = needed.results := by
    cases declared
    cases needed
    rw [Resources.mk.injEq]
  rw [verify_programOf_eq, ensure_bind_eq_ok_iff, ensure_bind_eq_ok_iff,
    Call.forM_check_eq_ok_iff, decide_eq_true_eq, decide_eq_true_eq, ← and_assoc, hresources]

theorem verify_programOf_eq_error_iff {x : Malformation} :
    verify (programOf sourceName entryPoint calls declared p) needed = .error x ↔
      Mismatch declared needed calls x := by
  rw [verify_programOf_eq, ensure_bind_eq_error_iff, ensure_bind_eq_error_iff,
    Call.forM_check_eq_error_iff]
  simp only [decide_eq_true_eq, decide_eq_false_iff_not]
  constructor
  · rintro (⟨hqubits, rfl⟩ | ⟨hqubits, ⟨hresults, rfl⟩ |
      ⟨hresults, before, c, after, hcalls, hbefore, hc, rfl⟩⟩)
    · exact .qubits hqubits
    · exact .results hqubits hresults
    · exact .arguments hqubits hresults hcalls hbefore hc
  · intro h
    cases h with
    | qubits hqubits => exact .inl ⟨hqubits, rfl⟩
    | results hqubits hresults => exact .inr ⟨hqubits, .inl ⟨hresults, rfl⟩⟩
    | arguments hqubits hresults hcalls hbefore hc =>
      exact .inr ⟨hqubits, .inr ⟨hresults, _, _, _, hcalls, hbefore, hc, rfl⟩⟩

end

/-- Of the programs that make any calls, the checks accept those that declare the resources needed
and pass every intrinsic what it has parameters for. Of any other program they report the first
mismatch. -/
theorem verify_programOf (sourceName entryPoint : String) (calls : List Call)
    (declared needed : Resources) (p : Profile) :
    (verify (programOf sourceName entryPoint calls declared p) needed = .ok () ↔
      declared = needed ∧ ∀ c ∈ calls, c.Fits) ∧
    ∀ x, verify (programOf sourceName entryPoint calls declared p) needed = .error x ↔
      Mismatch declared needed calls x :=
  ⟨verify_programOf_eq_ok_iff, fun _ => verify_programOf_eq_error_iff⟩

end EntryBlock

end CircuitQir
