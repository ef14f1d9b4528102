/-
  ZincSim.Step.FpStep — the whole effect of an instruction that calls the FPU.

  The write-back loop runs over the accrued flags, rd and the write of mstatus that makes
  FS Dirty, each through `set_csr`.  What is left behind is the result in rd, its flags
  or-ed into fcsr, and FS and SD set if there was anything floating-point to track
  (`fp_step`).
-/
import ZincSim.Csr.Accrue

namespace ZincSim

open ZincSim.Core (maskMstatus)

/-! ## §1. The effect -/

/-- The core with a register written. -/
def Core.put (core : Core) (write : RegWrite) : Core :=
  match write.type with
  | .x => core.setGpr (write.num.setWidth 5) write.value
  | .f => core.setFpr (write.num.setWidth 5) (write.value.setWidth 32)
  | .csr => core

/-- The result is a change of the floating-point state: an F register, or a flag. -/
def TouchesFp (insn : DecodedInsn) (result : FpResult) : Prop :=
  (fpDest insn result.value).type = .f ∨ result.flags ≠ 0

instance (insn : DecodedInsn) (result : FpResult) : Decidable (TouchesFp insn result) :=
  inferInstanceAs (Decidable (_ ∨ _))

/-- The core after the result of a call, by what it was before. -/
structure FpEffect (insn : DecodedInsn) (result : FpResult) (core core' : Core) : Prop where
  pc : core'.pc = core.pc + 4
  priv : core'.priv = core.priv
  gprs : core'.gprs = (core.put (fpDest insn result.value)).gprs
  fprs : core'.fprs = (core.put (fpDest insn result.value)).fprs
  fcsr : core'.csrs 0x003 = core.csrs 0x003 ||| result.flags.setWidth 64
  mstatus : core'.csrs 0x300 =
    if TouchesFp insn result ∧ core.csrs 0x300 &&& mstatusFsMask ≠ mstatusFsDirty then
      core.csrs 0x300 ||| mstatusFsDirty ||| mstatusSdMask
    else core.csrs 0x300
  csrs : ∀ slot, slot ≠ 0x003 → slot ≠ 0x300 → core'.csrs slot = core.csrs slot

/-! ## §2. The entries -/

/-- FS has two bits, so Dirty is all of it. -/
theorem dirtyMstatus_eq (mstatus : BitVec 64) :
    dirtyMstatus mstatus = mstatus ||| mstatusFsDirty := by
  unfold dirtyMstatus
  rw [show mstatusFsMask = mstatusFsDirty from rfl]
  ext i hi
  simp only [BitVec.getElem_or, BitVec.getElem_and, BitVec.getElem_not]
  grind

theorem dirtyMstatus_eq_self_iff (mstatus : BitVec 64) :
    dirtyMstatus mstatus = mstatus ↔ mstatus &&& mstatusFsMask = mstatusFsDirty := by
  constructor
  · intro h
    rw [← h]
    exact dirtyMstatus_fs mstatus
  · intro h
    rw [dirtyMstatus, ← h]
    ext i hi
    simp only [BitVec.getElem_or, BitVec.getElem_and, BitVec.getElem_not]
    grind

/-- `set_csr` sets SD with FS. -/
theorem maskMstatus_dirty (mstatus : BitVec 64) :
    maskMstatus mstatus (dirtyMstatus mstatus) = mstatus ||| mstatusFsDirty ||| mstatusSdMask := by
  -- FS is writable, so the merge gives the new value back
  have hmerge : (mstatus &&& ~~~mstatusWritableMask) |||
      (dirtyMstatus mstatus &&& mstatusWritableMask) = dirtyMstatus mstatus := by
    rw [dirtyMstatus_eq]
    have hfs : mstatusFsDirty &&& mstatusWritableMask = mstatusFsDirty := by decide
    ext i hi
    have hbit : (mstatusFsDirty &&& mstatusWritableMask)[i] = mstatusFsDirty[i] := by rw [hfs]
    simp only [BitVec.getElem_or, BitVec.getElem_and, BitVec.getElem_not] at hbit ⊢
    grind
  have hdirty : (dirtyMstatus mstatus &&& ~~~mstatusSdMask) &&& mstatusFsMask = mstatusFsDirty := by
    rw [BitField.clear_and_of_disjoint _ _ _ (by decide), dirtyMstatus_fs]
  unfold maskMstatus
  dsimp only
  rw [hmerge, if_pos hdirty, dirtyMstatus_eq]
  ext i hi
  simp only [BitVec.getElem_or, BitVec.getElem_and, BitVec.getElem_not]
  grind

/-- The entry of fcsr after the accrual. -/
theorem storedEntry_accrue (core : Core) {result : FpResult}
    (hflags : result.flags &&& 0x1f = result.flags) :
    core.storedEntry .fflags (accrue (core.getCsr .fflags) result) =
      core.csrs 0x003 ||| result.flags.setWidth 64 := by
  have hnew : result.flags.setWidth 64 &&& 0x1f#64 = result.flags.setWidth 64 := by
    have hwide := congrArg (BitVec.setWidth 64) hflags
    rw [BitVec.setWidth_and] at hwide
    exact hwide
  show (core.csrs 0x003 &&& ~~~0x1f#64) |||
    (((core.csrs 0x003 &&& 0x1f#64) ||| result.flags.setWidth 64) &&& 0x1f#64) = _
  rw [BitVec.and_or_distrib_right, hnew, BitVec.and_assoc, BitVec.and_self, ← BitVec.or_assoc]
  congr 1
  ext i hi
  simp only [BitVec.getElem_or, BitVec.getElem_and, BitVec.getElem_not]
  grind

/-! ## §3. The loop -/

section Loop

variable {core core' : Core} {logged : List RegWrite} {insn : DecodedInsn} {call : FpuCall}
  {result : FpResult}

theorem put_xWrite (core : Core) (rd : RegIndex) (value : BitVec 64) :
    core.put (xWrite rd value) = core.setGpr rd value := by
  show core.setGpr ((xWrite rd value).num.setWidth 5) value = _
  rw [show (xWrite rd value).num.setWidth 5 = rd from setWidth_rd rd]

theorem put_fWrite (core : Core) (rd : RegIndex) (value : BitVec 64) :
    core.put (fWrite rd value) = core.setFpr rd (value.setWidth 32) := by
  show core.setFpr ((fWrite rd value).num.setWidth 5) (value.setWidth 32) = _
  rw [show (fWrite rd value).num.setWidth 5 = rd from setWidth_rd rd]

/-- A register is no CSR, no pc and no privilege. -/
theorem put_kept (core : Core) (write : RegWrite) :
    (core.put write).csrs = core.csrs ∧ (core.put write).pc = core.pc ∧
      (core.put write).priv = core.priv := by
  unfold Core.put
  split
  · exact ⟨Core.setGpr_csrs .., Core.setGpr_pc .., Core.setGpr_priv ..⟩
  · exact ⟨rfl, rfl, rfl⟩
  · exact ⟨rfl, rfl, rfl⟩

/-- The register files after a write depend on those before it alone. -/
theorem put_congr {core c : Core} (hgprs : c.gprs = core.gprs) (hfprs : c.fprs = core.fprs)
    (write : RegWrite) :
    (c.put write).gprs = (core.put write).gprs ∧ (c.put write).fprs = (core.put write).fprs := by
  unfold Core.put
  split
  · refine ⟨?_, by rw [Core.setGpr_fprs, Core.setGpr_fprs, hfprs]⟩
    unfold Core.setGpr
    split
    · exact hgprs
    · exact congrArg (Function.update · _ _) hgprs
  · exact ⟨hgprs, congrArg (Function.update · _ _) hfprs⟩
  · exact ⟨hgprs, hfprs⟩

/-- The final list, in the order of the loop. -/
theorem finalRegWrites_fpStep (hcall : fpuCall core insn = some call) (result : FpResult) :
    ∃ dest writes, finalRegWrites core (fpStep core insn result).regWrites =
        fpFlagWrites core result ++ dest ++ dirtyFsWrites core writes ∧
      (writesFpState writes = true ↔ TouchesFp insn result) ∧
      ∀ c : Core, writeRegs dest c = .ok dest (c.put (fpDest insn result.value)) := by
  obtain ⟨flags, hflags⟩ := fpFlagWrites_eq core result
  obtain ⟨rd, hdest⟩ | ⟨rd, hdest, -⟩ := fpDest_cases hcall
  · refine ⟨rdWrites rd result.value, flagWrites flags, ?_, ?_, fun c => ?_⟩
    · rw [fpStep, hdest, hflags]
      exact finalRegWrites_x core flags rd result.value
    · -- only the flags count
      rw [← hflags, TouchesFp, hdest, fpFlagWrites]
      by_cases hzero : result.flags = 0
      · rw [if_neg (not_not.mpr hzero)]
        exact iff_of_false Bool.false_ne_true (by rw [xWrite_type]; simp [hzero])
      · rw [if_pos hzero]
        exact iff_of_true rfl (.inr hzero)
    · rw [hdest, put_xWrite]
      exact writeRegs_rdWrites rd result.value c
  · refine ⟨[fWrite rd result.value], [fWrite rd result.value], ?_, ?_, fun c => ?_⟩
    · rw [fpStep, hdest, hflags]
      exact finalRegWrites_f core flags rd result.value
    · rw [TouchesFp, hdest]
      exact iff_of_true rfl (.inl rfl)
    · rw [hdest, put_fWrite]
      exact writeRegs_fWrite rd result.value c

/-- The accrual, when there is a flag. -/
theorem writeRegs_fpFlagWrites {c c' : Core}
    (hflags : result.flags &&& 0x1f = result.flags) (hcsrs : c.csrs = core.csrs)
    (h : writeRegs (fpFlagWrites core result) c = .ok logged c') :
    c' =
      { c with
        csrs := Function.update c.csrs 0x003 (c.csrs 0x003 ||| result.flags.setWidth 64) } := by
  unfold fpFlagWrites at h
  split at h
  · obtain ⟨-, rfl, -⟩ := writeRegs_csr_ok h
    have hread : core.getCsr .fflags = c.getCsr .fflags :=
      Core.getCsr_congr (congrFun hcsrs.symm _)
    rw [← storedEntry_accrue c hflags, ← hread]
    rfl
  next hzero =>
    cases h
    rw [not_not.mp hzero, show (0 : BitVec 32).setWidth 64 = 0#64 from rfl, BitVec.or_zero,
      Function.update_eq_self]

/-- mstatus after the loop. -/
def dirtied (core : Core) (writes : List RegWrite) : BitVec 64 :=
  if writesFpState writes = true ∧ core.csrs 0x300 &&& mstatusFsMask ≠ mstatusFsDirty then
    core.csrs 0x300 ||| mstatusFsDirty ||| mstatusSdMask
  else core.csrs 0x300

/-- The write of mstatus, when FS was not Dirty. -/
theorem writeRegs_dirtyFsWrites {c c' : Core} {writes : List RegWrite}
    (hmstatus : c.csrs 0x300 = core.csrs 0x300)
    (h : writeRegs (dirtyFsWrites core writes) c = .ok logged c') :
    c' = { c with csrs := Function.update c.csrs 0x300 (dirtied core writes) } := by
  have hread : core.getCsr .mstatus = core.csrs 0x300 := rfl
  unfold dirtyFsWrites at h
  dsimp only at h
  rw [hread] at h
  by_cases hwrites : writesFpState writes = true ∧
      core.csrs 0x300 &&& mstatusFsMask ≠ mstatusFsDirty
  · have hne : dirtyMstatus (core.csrs 0x300) ≠ core.csrs 0x300 :=
      fun heq => hwrites.2 ((dirtyMstatus_eq_self_iff _).mp heq)
    rw [hwrites.1, Bool.true_and, if_pos (bne_iff_ne.mpr hne)] at h
    obtain ⟨-, rfl, -⟩ := writeRegs_csr_ok h
    rw [dirtied, if_pos hwrites, ← maskMstatus_dirty, ← hmstatus]
    rfl
  · have hnot : ¬ (writesFpState writes && dirtyMstatus (core.csrs 0x300) != core.csrs 0x300) =
        true := by
      rw [Bool.and_eq_true, bne_iff_ne, Ne, dirtyMstatus_eq_self_iff]
      exact hwrites
    rw [if_neg hnot] at h
    cases h
    rw [dirtied, if_neg hwrites, ← hmstatus, Function.update_eq_self]

/-- **The loop over the writes of a call.** -/
theorem writeRegs_fpEffect {rm : RoundingMode} (hcall : fpuCall core insn = some call)
    (hrun : call.run rm = .ok result)
    (h : writeRegs (finalRegWrites core (fpStep core insn result).regWrites)
      (advance core (fpStep core insn result)) = .ok logged core') :
    FpEffect insn result core core' := by
  obtain ⟨dest, writes, hlist, htouches, hput⟩ := finalRegWrites_fpStep hcall result
  rw [hlist] at h
  obtain ⟨mid', front, last, hfront, hlast, -⟩ := writeRegs_append_ok h
  obtain ⟨mid, first, second, hfirst, hsecond, -⟩ := writeRegs_append_ok hfront
  have hstart : (advance core (fpStep core insn result)).csrs = core.csrs := rfl
  have hmid := writeRegs_fpFlagWrites (FpuCall.run_flags_within hrun) hstart hfirst
  rw [hput] at hsecond
  cases hsecond
  obtain ⟨hcsrs, hpc, hpriv⟩ := put_kept mid (fpDest insn result.value)
  have hfcsr : (mid.put (fpDest insn result.value)).csrs =
      Function.update core.csrs 0x003 (core.csrs 0x003 ||| result.flags.setWidth 64) := by
    rw [hcsrs, hmid]
    rfl
  have hmstatus : (mid.put (fpDest insn result.value)).csrs 0x300 = core.csrs 0x300 := by
    rw [hfcsr]
    exact Function.update_of_ne (by decide) ..
  have hend := writeRegs_dirtyFsWrites hmstatus hlast
  obtain ⟨hgprs, hfprs⟩ := @put_congr core mid (by rw [hmid]; rfl) (by rw [hmid]; rfl)
    (fpDest insn result.value)
  rw [hend]
  refine ⟨?_, ?_, hgprs, hfprs, ?_, ?_, fun slot hslot hslot' => ?_⟩
  · rw [show mid.pc = core.pc + 4 by rw [hmid]; rfl] at hpc
    exact hpc
  · rw [show mid.priv = core.priv by rw [hmid]; rfl] at hpriv
    exact hpriv
  · dsimp only
    rw [Function.update_of_ne (by decide), hfcsr, Function.update_self]
  · dsimp only
    rw [Function.update_self, dirtied]
    simp only [htouches]
  · dsimp only
    rw [Function.update_of_ne hslot', hfcsr, Function.update_of_ne hslot]

end Loop

/-! ## §4. The step -/

/-- **An instruction that calls the FPU** commits in each of the five rounding modes, and
leaves its result in rd and its flags in fcsr, with FS and SD set if an F register or a flag
was written; nothing else changes. -/
theorem fp_step {m : Machine} {insn : DecodedInsn} {call : FpuCall} {mode : Rounding.Mode}
    (hcall : fpuCall m.core insn = some call)
    (hmode : resolveRounding m.core (rmField insn) = .ok (roundingMode mode))
    (hfetch : Fetches m) :
    ∃ result commit m', call.run (roundingMode mode) = .ok result ∧
      step insn m = .ok (some commit) m' ∧ FpEffect insn result m.core m'.core ∧
      m'.mem = m.mem := by
  obtain ⟨result, hrun⟩ := FpuCall.run_total (fpuCall_offered hcall) mode
  have hx : execute m.core m.mem insn = .ok (.normal (fpStep m.core insn result)) := by
    rw [execute_of_fpuCall hcall, hmode]
    show (call.run (roundingMode mode) >>= _) = _
    rw [hrun]
    rfl
  obtain ⟨word, hword⟩ := hfetch
  obtain ⟨logged, core, hregs, hstep⟩ := @step_of_plain _ m _ _ _ m.mem hx
    (execute_fpuCall_plain hcall m.mem _ hx) hword rfl
  exact ⟨result, _, _, hrun, hstep, writeRegs_fpEffect hcall hrun hregs, rfl⟩

/-- `fdiv.s f1, f0, f0`: 0 / 0 is an invalid operation. -/
theorem fp_step_div :
    ∃ commit m', step (.opFp ⟨.div, .rne, 0, 0, 1⟩) (Machine.boot [0x180000d3]) =
        .ok (some commit) m' ∧
      m'.core.fprs 1 = 0x7fc00000 ∧ m'.core.csrs 0x003 = 0x10 ∧
      m'.core.csrs 0x300 &&& mstatusSdMask ≠ 0 := by
  have hrun : (FpuCall.binary .div 0 0).run (roundingMode .tiesToEven) =
      .ok { value := 0x7fc00000, flags := 0x10 } := by decide +kernel
  obtain ⟨result, commit, m', hrun', hstep, heffect, -⟩ :=
    @fp_step (Machine.boot [0x180000d3]) (.opFp ⟨.div, .rne, 0, 0, 1⟩) _ .tiesToEven rfl rfl
      ⟨0x180000d3, rfl⟩
  cases hrun.symm.trans hrun'
  refine ⟨commit, m', hstep, ?_, ?_, ?_⟩
  · rw [heffect.fprs]
    rfl
  · rw [heffect.fcsr]
    rfl
  · rw [heffect.mstatus]
    decide

end ZincSim
