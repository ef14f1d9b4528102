/-
  ZincSim.Csr.Accrue — the exception flags accrue over a run.

  Only a CSR instruction on fflags, frm or fcsr sets the flags to something of its own.
  Any other returning step folds the flags of the one FPU call it may make into fflags
  and leaves frm alone (`step_accrues`), and so does a run with the flags of all its
  calls (`run_accrues`).
-/
import ZincSim.Csr.Dirty

namespace ZincSim

open TransitionSystem
open Except (Returns returns_ok returns_error returns_bind returns_bind_any returns_ite)

/-! ## §1. The results of a step -/

/-- What the FPU returned in this step: at most one result. -/
def fpResults (m : Machine) (insn : DecodedInsn) : List FpResult :=
  match fpuCall m.core insn with
  | none => []
  | some call =>
      match resolveRounding m.core (rmField insn) >>= call.run with
      | .ok result => [result]
      | .error _ => []

/-- One result is accrued. -/
def accrue (fflags : BitVec 64) (result : FpResult) : BitVec 64 :=
  fflags ||| result.flags.setWidth 64

/-- A CSR instruction that writes fflags, frm or fcsr. -/
def WritesFpCsr : DecodedInsn → Prop
  | .system insn =>
      isCsrInsn insn = true ∧ csrWritesBack insn = true ∧ insn.csr ∈ [0x001, 0x002, 0x003]
  | _ => False

theorem fpResults_of_no_call {m : Machine} {insn : DecodedInsn}
    (h : fpuCall m.core insn = none) : fpResults m insn = [] := by
  rw [fpResults, h]

/-- A call that the step made has returned, and its result is the step's. -/
theorem fpResults_of_call {m : Machine} {insn : DecodedInsn} {call : FpuCall}
    (hcall : fpuCall m.core insn = some call) {r : StepResult}
    (h : execute m.core m.mem insn = .ok r) :
    ∃ rm result, call.run rm = .ok result ∧ fpResults m insn = [result] ∧
      r = .normal (fpStep m.core insn result) := by
  rw [execute_of_fpuCall hcall] at h
  rw [fpResults, hcall]
  cases hrm : resolveRounding m.core (rmField insn) with
  | error fault =>
    rw [hrm] at h
    cases h
  | ok rm =>
    rw [hrm] at h
    cases hrun : call.run rm with
    | error fault =>
      simp only [bind, Except.bind, hrun] at h
      cases h
    | ok result =>
      simp only [bind, Except.bind, hrun] at h
      cases h
      exact ⟨rm, result, hrun, by simp only [bind, Except.bind, hrun], rfl⟩

/-- The flags of a result lie within the five bits of fflags. -/
theorem FpuCall.run_flags_within {call : FpuCall} {rm : RoundingMode} {result : FpResult}
    (h : call.run rm = .ok result) : result.flags &&& 0x1f = result.flags := by
  rcases call.run_flags rm result h with hflags | hflags | ⟨hflags, -⟩
  · simp only [roundingFlags, List.mem_cons, List.not_mem_nil, or_false] at hflags
    rcases hflags with hflags | hflags | hflags | hflags <;> rw [hflags] <;> decide
  · rw [hflags]
    decide
  · rw [hflags]
    decide

/-! ## §2. Steps without a call -/

/-- The result asks for no CSR write. -/
def StepResult.NoCsr : StepResult → Prop
  | .normal result => ∀ write ∈ result.regWrites, write.type ≠ .csr
  | .exception _ => True

theorem noCsr_nil {result : NormalStep} (h : result.regWrites = []) :
    (StepResult.normal result).NoCsr := by
  intro write hmem
  rw [h] at hmem
  exact absurd hmem List.not_mem_nil

theorem noCsr_singleton {result : NormalStep} {write : RegWrite}
    (h : result.regWrites = [write]) (htype : write.type ≠ .csr) :
    (StepResult.normal result).NoCsr := by
  intro write' hmem
  rw [h, List.mem_singleton] at hmem
  rw [hmem]
  exact htype

/-- **An instruction that neither calls the FPU nor is a system instruction** asks for no
CSR write. -/
theorem execute_noCsr {core : Core} {mem : Memory} {insn : DecodedInsn}
    (hcall : fpuCall core insn = none) (hsystem : ∀ si, insn ≠ .system si) :
    (execute core mem insn).Returns StepResult.NoCsr := by
  have hx {result : NormalStep} {rd : RegIndex} {value : BitVec 64}
      (h : result.regWrites = [xWrite rd value]) : (StepResult.normal result).NoCsr :=
    noCsr_singleton h (by simp)
  have hf {result : NormalStep} {rd : RegIndex} {value : BitVec 64}
      (h : result.regWrites = [fWrite rd value]) : (StepResult.normal result).NoCsr :=
    noCsr_singleton h (by simp)
  cases insn with
  | system si => exact absurd rfl (hsystem si)
  | lui _ | auipc _ | jalr _ => exact returns_ok (hx rfl)
  | jal _ => exact returns_ite (fun _ => returns_error _) fun _ => returns_ok (hx rfl)
  | branch _ => exact returns_bind_any fun _ => returns_ok (noCsr_nil rfl)
  | load _ =>
    exact returns_bind_any fun _ => returns_ite (fun _ => returns_ok trivial) fun _ =>
      returns_bind_any fun _ => returns_ok (hx rfl)
  | store _ =>
    exact returns_bind_any fun _ => returns_ite (fun _ => returns_ok trivial) fun _ =>
      returns_bind_any fun _ => returns_ok (noCsr_nil rfl)
  | opImm _ | op _ | opImm32 _ | op32 _ => exact returns_bind_any fun _ => returns_ok (hx rfl)
  | miscMem insn =>
    show (executeMiscMem core insn).Returns _
    unfold executeMiscMem
    split
    · exact returns_ok (noCsr_nil rfl)
    · exact returns_ok (noCsr_nil rfl)
    · exact returns_error _
  | loadFp _ => exact returns_bind_any fun _ => returns_ok (hf rfl)
  | storeFp _ => exact returns_ok (noCsr_nil rfl)
  | opFp insn =>
    show (executeOpFp core insn).Returns _
    unfold executeOpFp
    refine returns_bind_any fun rm => ?_
    -- only the classification and the two moves make no call
    cases htype : insn.type with
    | fclass => exact returns_bind_any fun _ => returns_ok (hx rfl)
    | moveToX => exact returns_ok (hx rfl)
    | moveFromX => exact returns_ok (hf rfl)
    | _ =>
      simp only [fpuCall, htype] at hcall
      cases hcall
  | fmaFp _ => cases hcall
  | invalid => exact returns_error _

/-- CSR writes outside the entry of fcsr leave it alone. -/
theorem writeRegs_fcsr_frame {writes logged : List RegWrite} {core core' : Core}
    (h : writeRegs writes core = .ok logged core')
    (hwrites : ∀ write ∈ writes, write.type = .csr →
      write.num ∉ [Csr.fflags.num, Csr.frm.num, Csr.fcsr.num]) :
    core'.csrs 0x003 = core.csrs 0x003 := by
  refine writeRegs_csrs_of_not_mem h ?_
  intro write hmem htype hw hslot
  have hnum : write.num = (Csr.ofNum write.num).num := (Csr.num_ofNum _).symm
  refine hwrites write hmem htype ?_
  rcases fcsr_of_slot hw hslot with hcsr | hcsr | hcsr <;> rw [hnum, hcsr] <;> simp

theorem mstatus_not_fp : Csr.mstatus.num ∉ [Csr.fflags.num, Csr.frm.num, Csr.fcsr.num] := by
  decide

/-- **A step without a call** leaves fcsr alone, unless it is a CSR instruction that writes
it. -/
theorem writeRegs_no_call {core core' : Core} {mem : Memory} {insn : DecodedInsn}
    {result : NormalStep} {logged : List RegWrite}
    (hx : execute core mem insn = .ok (.normal result)) (hcall : fpuCall core insn = none)
    (hno : ¬ WritesFpCsr insn)
    (h : writeRegs (finalRegWrites core result.regWrites) (advance core result)
      = .ok logged core') :
    core'.csrs 0x003 = core.csrs 0x003 := by
  refine @writeRegs_fcsr_frame _ _ (advance core result) _ h ?_
  intro write hmem htype
  rcases execute_normal_cases hx with ⟨si, rfl, hcsr, -, rfl⟩ | ⟨si, -, -, rfl⟩ | ⟨hsystem, -⟩
  · -- the instruction's own CSR, which is none of the three
    have hnot (hwb : csrWritesBack si = true) : si.csr ∉ [0x001, 0x002, (0x003 : BitVec 12)] :=
      fun hmem => hno ⟨hcsr, hwb, hmem⟩
    rcases csrStep_csr_mem hmem htype with ⟨hwb, rfl⟩ | ⟨⟨hwb, hnum⟩, -⟩ | rfl
    · intro hmem
      refine hnot hwb ?_
      have hwiden (n : BitVec 12) (h : si.csr.setWidth 32 = n.setWidth 32) : si.csr = n :=
        csrNum_inj h
      simp only [csrWrite_num, List.mem_cons, List.not_mem_nil, or_false] at hmem ⊢
      rcases hmem with h | h | h
      · exact .inl (hwiden 0x001 h)
      · exact .inr (.inl (hwiden 0x002 h))
      · exact .inr (.inr (hwiden 0x003 h))
    · exact absurd (by rw [hnum]; simp) (hnot hwb)
    · exact mstatus_not_fp
  · rw [finalRegWrites_mret, List.mem_singleton] at hmem
    rw [hmem]
    exact mstatus_not_fp
  · have hasked := execute_noCsr hcall hsystem _ hx
    rcases csr_mem_finalRegWrites hmem htype with h' | ⟨⟨whole, hmem', htype', -⟩, -⟩ | rfl
    · exact absurd htype (hasked write h')
    · exact absurd htype' (hasked whole hmem')
    · exact mstatus_not_fp

/-! ## §3. Steps with a call -/

/-- fflags and frm after the accrual of a result. -/
theorem accrual (core : Core) {result : FpResult}
    (hflags : result.flags &&& 0x1f = result.flags) :
    (core.withCsr .fflags (accrue (core.getCsr .fflags) result)).getCsr .fflags =
        accrue (core.getCsr .fflags) result ∧
      (core.withCsr .fflags (accrue (core.getCsr .fflags) result)).getCsr .frm =
        core.getCsr .frm := by
  refine ⟨?_, Core.getCsr_frm_withCsr_fflags core _⟩
  -- both operands of the accrual lie within the five bits
  have hold : core.getCsr .fflags &&& 0x1f = core.getCsr .fflags := by
    show (core.csrs 0x003 &&& 0x1f) &&& 0x1f = core.csrs 0x003 &&& 0x1f
    rw [BitVec.and_assoc, BitVec.and_self]
  have hnew : result.flags.setWidth 64 &&& 0x1f#64 = result.flags.setWidth 64 := by
    have hwide := congrArg (BitVec.setWidth 64) hflags
    rw [BitVec.setWidth_and] at hwide
    exact hwide
  have hboth : accrue (core.getCsr .fflags) result &&& 0x1f =
      accrue (core.getCsr .fflags) result := BitField.or_and_eq_self hold hnew
  exact (BitField.merge_and_of_subset 0x1f#64 (core.csrs 0x003) _ 0x1f (by decide)).trans hboth

/-- **A step with a call** accrues the flags of its result, whatever rd is. -/
theorem writeRegs_call {core core' : Core} {insn : DecodedInsn} {call : FpuCall}
    {rm : RoundingMode} {result : FpResult} {logged : List RegWrite}
    (hcall : fpuCall core insn = some call) (hrun : call.run rm = .ok result)
    (h : writeRegs (finalRegWrites core (fpStep core insn result).regWrites)
      (advance core (fpStep core insn result)) = .ok logged core') :
    core'.getCsr .fflags = accrue (core.getCsr .fflags) result ∧
      core'.getCsr .frm = core.getCsr .frm := by
  -- the list starts with the write of fflags, and no later write meets fcsr
  obtain ⟨rest, hlist, hrest⟩ : ∃ rest,
      finalRegWrites core (fpStep core insn result).regWrites =
        fpFlagWrites core result ++ rest ∧
      ∀ write ∈ rest, write.type = .csr →
        write.num ∉ [Csr.fflags.num, Csr.frm.num, Csr.fcsr.num] := by
    have hdirty (writes : List RegWrite) (write : RegWrite)
        (hmem : write ∈ dirtyFsWrites core writes) :
        write.num ∉ [Csr.fflags.num, Csr.frm.num, Csr.fcsr.num] := by
      rw [eq_of_mem_dirtyFsWrites hmem]
      exact mstatus_not_fp
    obtain ⟨flags, hflags⟩ := fpFlagWrites_eq core result
    obtain ⟨rd, hdest⟩ | ⟨rd, hdest, -⟩ := fpDest_cases hcall
    · refine ⟨rdWrites rd result.value ++ dirtyFsWrites core (flagWrites flags), ?_, ?_⟩
      · rw [fpStep, hdest, hflags, ← List.append_assoc]
        exact finalRegWrites_x core flags rd result.value
      · intro write hmem htype
        rcases List.mem_append.mp hmem with hmem | hmem
        · unfold rdWrites at hmem
          split at hmem
          · exact absurd hmem List.not_mem_nil
          · rw [List.mem_singleton.mp hmem] at htype
            cases htype
        · exact hdirty _ write hmem
    · refine ⟨fWrite rd result.value :: dirtyFsWrites core [fWrite rd result.value], ?_, ?_⟩
      · rw [fpStep, hdest, hflags, finalRegWrites_f, List.append_assoc]
        rfl
      · intro write hmem htype
        rcases List.mem_cons.mp hmem with rfl | hmem
        · cases htype
        · exact hdirty _ write hmem
  rw [hlist] at h
  obtain ⟨mid, first, later, hflags, hlater, -⟩ := writeRegs_append_ok h
  have hframe := writeRegs_fcsr_frame hlater hrest
  have hread (csr : Csr) (hslot : csr.slot = 0x003) : core'.getCsr csr = mid.getCsr csr :=
    Core.getCsr_congr (by rw [hslot]; exact hframe)
  rw [hread .fflags rfl, hread .frm rfl]
  unfold fpFlagWrites at hflags
  split at hflags
  · obtain ⟨-, rfl, -⟩ := writeRegs_csr_ok hflags
    exact accrual (advance core (fpStep core insn result)) (FpuCall.run_flags_within hrun)
  next hzero =>
    -- no flag, no write
    cases hflags
    rw [not_not] at hzero
    refine ⟨?_, rfl⟩
    rw [accrue, hzero]
    exact (BitVec.or_zero).symm

/-! ## §4. Steps and runs -/

/-- **One step accrues the flags of its call.** -/
theorem step_accrues {insn : DecodedInsn} {m m' : Machine} {r : Option Commit}
    (h : step insn m = .ok r m') (hno : ¬ WritesFpCsr insn) :
    m'.core.getCsr .fflags = (fpResults m insn).foldl accrue (m.core.getCsr .fflags) ∧
      m'.core.getCsr .frm = m.core.getCsr .frm := by
  have hread (hfcsr : m'.core.csrs 0x003 = m.core.csrs 0x003)
      (hcall : fpuCall m.core insn = none) :
      m'.core.getCsr .fflags = (fpResults m insn).foldl accrue (m.core.getCsr .fflags) ∧
        m'.core.getCsr .frm = m.core.getCsr .frm := by
    rw [fpResults_of_no_call hcall]
    exact ⟨Core.getCsr_congr hfcsr, Core.getCsr_congr hfcsr⟩
  rcases step_ok_cases h with ⟨exception, hx, -, rfl⟩ | ⟨result, raw, logged, hx, -, hregs, -, -⟩
  · cases hcall : fpuCall m.core insn with
    | none => exact hread rfl hcall
    | some call =>
      -- a call ends in a normal result or a throw
      obtain ⟨rm, result, -, -, hnormal⟩ := fpResults_of_call hcall hx
      cases hnormal
  · cases hcall : fpuCall m.core insn with
    | none => exact hread (writeRegs_no_call hx hcall hno hregs) hcall
    | some call =>
      obtain ⟨rm, fpResult, hrun, hresults, hnormal⟩ := fpResults_of_call hcall hx
      cases hnormal
      rw [hresults]
      exact writeRegs_call hcall hrun hregs

/-- One call of `Executor::step`, which returned. -/
def StepReturns (m : Machine) (insn : DecodedInsn) (m' : Machine) : Prop :=
  ∃ r, step insn m = .ok r m'

/-- Accrued flags stay. -/
theorem foldl_accrue_and (results : List FpResult) (fflags : BitVec 64) :
    fflags &&& results.foldl accrue fflags = fflags := by
  induction results generalizing fflags with
  | nil => exact BitVec.and_self
  | cons result results ih =>
    have hkeep : fflags &&& accrue fflags result = fflags := by
      rw [accrue]
      ext i hi
      simp only [BitVec.getElem_and, BitVec.getElem_or]
      grind
    show fflags &&& results.foldl accrue (accrue fflags result) = fflags
    calc fflags &&& results.foldl accrue (accrue fflags result)
        = (fflags &&& accrue fflags result) &&& results.foldl accrue (accrue fflags result) := by
          rw [hkeep]
      _ = fflags &&& accrue fflags result := by rw [BitVec.and_assoc, ih]
      _ = fflags := hkeep

/-- **Exception flags accrue**: over a run without a CSR instruction that writes fflags,
frm or fcsr, fflags collects the flags of every result of the FPU, loses none, and frm
stays. -/
theorem run_accrues {m m' : Machine} {trace : List (Machine × DecodedInsn)}
    (run : Run StepReturns m trace m') (hno : ∀ p ∈ trace, ¬ WritesFpCsr p.2) :
    m'.core.getCsr .fflags =
        (trace.flatMap fun p => fpResults p.1 p.2).foldl accrue (m.core.getCsr .fflags) ∧
      m.core.getCsr .fflags &&& m'.core.getCsr .fflags = m.core.getCsr .fflags ∧
      m'.core.getCsr .frm = m.core.getCsr .frm := by
  have hflags := run.accumulate (f := fun m => m.core.getCsr .fflags) (o := accrue)
    (C := fun _ insn => ¬ WritesFpCsr insn)
    (fun s insn t hno ⟨r, hstep⟩ => (step_accrues hstep hno).1) hno
  have hfrm := run.invariant_of (P := fun m₁ => m₁.core.getCsr .frm = m.core.getCsr .frm)
    (C := fun _ insn => ¬ WritesFpCsr insn)
    (fun s insn t hs hno ⟨r, hstep⟩ => (step_accrues hstep hno).2.trans hs) hno rfl
  refine ⟨hflags, ?_, hfrm.2⟩
  rw [hflags]
  exact foldl_accrue_and _ _

/-- The machine at the start, with a signalling NaN in every F register. -/
def Machine.bootSignalingNaN : Machine :=
  { Machine.boot [0xa010a053] with
    core := { (Machine.boot [0xa010a053]).core with fprs := fun _ => 0x7f800001 } }

/-- `feq.s x0, f1, f1` on signalling NaNs: nothing is left to write but the invalid
flag, which accrues. -/
theorem run_accrues_feq :
    ∃ m' : Machine, m'.core.getCsr .fflags = 0x10 ∧ m'.core.getCsr .frm = 0 := by
  have hrun : ∃ r m', step (.opFp ⟨.eq, .rdn, 1, 1, 0⟩) Machine.bootSignalingNaN = .ok r m' :=
    ⟨_, _, rfl⟩
  obtain ⟨r, m', hstep⟩ := hrun
  obtain ⟨hflags, -, hfrm⟩ := run_accrues (.cons ⟨r, hstep⟩ (.nil m')) (by
    intro p hmem
    rw [List.mem_singleton.mp hmem]
    exact id)
  exact ⟨m', hflags, hfrm⟩

end ZincSim
