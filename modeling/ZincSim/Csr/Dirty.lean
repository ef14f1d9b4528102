/-
  ZincSim.Csr.Dirty — mstatus.FS tracks the floating-point state.

  The tracking is done once, by the scan in `finalRegWrites`: a list with a write of
  floating-point state leaves FS = Dirty (`writeRegs_dirty`), and one without leaves
  that state alone (`writeRegs_fp_frame`).  In the other direction the writes of mstatus
  that an instruction asks for keep FS, unless it is a CSR instruction on mstatus
  (`mstatus_write_cases`).
-/
import ZincSim.Csr.Invariant
import ZincSim.Commit.RegLog

namespace ZincSim

open TransitionSystem

/-! ## §1. Lists with and without floating-point writes -/

theorem isFpStateWrite_iff (write : RegWrite) :
    isFpStateWrite write = true ↔
      write.type = .f ∨
        write.type = .csr ∧ (write.num = Csr.fflags.num ∨ write.num = Csr.frm.num) := by
  unfold isFpStateWrite
  cases write.type <;> simp

/-- A writable CSR that is stored in the entry of fcsr. -/
theorem fcsr_of_slot {csr : Csr} (hw : csr.writable = true) (h : csr.slot = 0x003) :
    csr = .fflags ∨ csr = .frm ∨ csr = .fcsr := by
  revert h hw
  cases csr <;> simp [Csr.writable, Csr.slot, Csr.num]

/-- No write of fcsr is left after the split. -/
theorem not_fcsr_of_mem {writes : List RegWrite} {write : RegWrite}
    (h : write ∈ expandFcsrWrites writes) :
    ¬ (write.type = .csr ∧ write.num = Csr.fcsr.num) := by
  obtain ⟨whole, -, hmem⟩ := List.mem_flatMap.mp h
  unfold expandFcsrWrite at hmem
  split at hmem
  · rcases List.mem_pair.mp hmem with rfl | rfl
    · exact fun hc => absurd hc.2 (by simp [Csr.num])
    · exact fun hc => absurd hc.2 (by simp [Csr.num])
  next hfcsr =>
    rw [List.mem_singleton] at hmem
    rw [hmem]
    exact hfcsr

/-- **Without a write of floating-point state** the F registers and fcsr stay. -/
theorem writeRegs_fp_frame {writes logged : List RegWrite} {core core' : Core}
    (hfp : writesFpState (expandFcsrWrites writes) = false)
    (h : writeRegs (expandFcsrWrites writes) core = .ok logged core') :
    core'.fprs = core.fprs ∧ core'.csrs 0x003 = core.csrs 0x003 := by
  have hno (write : RegWrite) (hmem : write ∈ expandFcsrWrites writes) :
      ¬ isFpStateWrite write = true := List.any_eq_false.mp hfp write hmem
  constructor
  · refine writeRegs_invariant (P := fun c => c.fprs = core.fprs) ?_ h rfl
    intro write hmem c c' first hc hw
    rcases writeReg_ok_cases hw with ⟨-, -, -, rfl⟩ | ⟨hf, -⟩ | ⟨-, -, -, rfl⟩
    · rw [Core.setGpr_fprs]
      exact hc
    · exact absurd ((isFpStateWrite_iff write).mpr (.inl hf)) (hno write hmem)
    · exact hc
  · refine writeRegs_csrs_of_not_mem h ?_
    intro write hmem htype hw hslot
    have hnum : write.num = (Csr.ofNum write.num).num := (Csr.num_ofNum _).symm
    rcases fcsr_of_slot hw hslot with hcsr | hcsr | hcsr <;> rw [hcsr] at hnum
    · exact hno write hmem ((isFpStateWrite_iff write).mpr (.inr ⟨htype, .inl hnum⟩))
    · exact hno write hmem ((isFpStateWrite_iff write).mpr (.inr ⟨htype, .inr hnum⟩))
    · exact not_fcsr_of_mem hmem ⟨htype, hnum⟩

theorem dirtyMstatus_fs (mstatus : BitVec 64) :
    dirtyMstatus mstatus &&& mstatusFsMask = mstatusFsDirty :=
  BitField.insert_and _ _ _ (by decide)

/-! ## §2. The writes of mstatus that are asked for -/

/-- A CSR instruction on mstatus. -/
def OnMstatus : DecodedInsn → Prop
  | .system insn => isCsrInsn insn = true ∧ insn.csr = 0x300
  | _ => False

/-- The writes of mstatus in a list. -/
def RegWrite.IsMstatus (write : RegWrite) : Prop :=
  write.type = .csr ∧ write.num = Csr.mstatus.num

theorem not_isMstatus_rdWrites {rd : RegIndex} {value : BitVec 64} {write : RegWrite}
    (h : write ∈ rdWrites rd value) : ¬ write.IsMstatus := by
  unfold rdWrites at h
  split at h
  · exact absurd h List.not_mem_nil
  · rw [List.mem_singleton.mp h]
    exact fun hm => absurd hm.1 (by simp)

theorem not_isMstatus_flagWrites {flags : Option (BitVec 64)} {write : RegWrite}
    (h : write ∈ flagWrites flags) : ¬ write.IsMstatus := by
  obtain ⟨value, -, rfl⟩ := List.mem_map.mp h
  exact fun hm => absurd hm.2 (by simp [Csr.num])

/-- A plain result asks for no write of mstatus. -/
theorem PlainWrites.not_isMstatus {writes : List RegWrite} (h : PlainWrites writes)
    {write : RegWrite} (hmem : write ∈ expandFcsrWrites (dropX0Writes writes)) :
    ¬ write.IsMstatus := by
  cases h with
  | none => exact absurd hmem List.not_mem_nil
  | x flags rd value =>
    rw [expandFcsrWrites_x] at hmem
    rcases List.mem_append.mp hmem with h | h
    · exact not_isMstatus_flagWrites h
    · exact not_isMstatus_rdWrites h
  | f flags rd value word =>
    rw [expandFcsrWrites_f] at hmem
    rcases List.mem_append.mp hmem with h | h
    · exact not_isMstatus_flagWrites h
    · rw [List.mem_singleton.mp h]
      exact fun hm => absurd hm.1 (by simp)

/-- A CSR instruction asks for a write of mstatus when mstatus is its CSR, and then
for no write of floating-point state. -/
theorem csrStep_isMstatus {core : Core} {insn : SystemInsn} {write : RegWrite}
    (hmem : write ∈ expandFcsrWrites (dropX0Writes (csrStep core insn).regWrites))
    (hm : write.IsMstatus) :
    insn.csr = 0x300 ∧
      writesFpState (expandFcsrWrites (dropX0Writes (csrStep core insn).regWrites)) = false := by
  rw [expandFcsrWrites_csrStep] at hmem ⊢
  have hpart : write ∈ csrPart core insn := by
    rcases List.mem_append.mp hmem with h | h
    · exact absurd hm (not_isMstatus_rdWrites h)
    · exact h
  have hcsr : insn.csr = 0x300 := by
    unfold csrPart at hpart
    split at hpart
    · unfold expandFcsrWrite at hpart
      split at hpart
      · -- the halves of fcsr
        rcases List.mem_pair.mp hpart with rfl | rfl
        · exact absurd hm.2 (by simp [Csr.num])
        · exact absurd hm.2 (by simp [Csr.num])
      · rw [List.mem_singleton] at hpart
        subst hpart
        exact csrNum_inj hm.2
    · exact absurd hpart List.not_mem_nil
  refine ⟨hcsr, ?_⟩
  rw [writesFpState_append, writesFpState_rdWrites, Bool.false_or]
  unfold csrPart
  split
  · rw [hcsr]
    rfl
  · rfl

/-- **A write of mstatus that an instruction asks for** comes with no write of
floating-point state, and keeps FS unless the instruction is a CSR instruction on
mstatus. -/
theorem mstatus_write_cases {core : Core} {mem : Memory} {insn : DecodedInsn}
    {result : NormalStep} (h : execute core mem insn = .ok (.normal result))
    {write : RegWrite} (hmem : write ∈ expandFcsrWrites (dropX0Writes result.regWrites))
    (hm : write.IsMstatus) :
    writesFpState (expandFcsrWrites (dropX0Writes result.regWrites)) = false ∧
      (OnMstatus insn ∨
        write.value &&& mstatusFsMask = core.getCsr .mstatus &&& mstatusFsMask) := by
  rcases execute_normal_cases h with ⟨si, rfl, hcsr, -, rfl⟩ | ⟨si, -, -, rfl⟩ | ⟨-, hplain⟩
  · obtain ⟨hnum, hfp⟩ := csrStep_isMstatus hmem hm
    exact ⟨hfp, .inl ⟨hcsr, hnum⟩⟩
  · -- MRET asks for one write
    have hwrite : write = csrWrite Csr.mstatus.num (mretMstatus (core.getCsr .mstatus)) :=
      List.mem_singleton.mp hmem
    rw [hwrite]
    exact ⟨rfl, .inr (mretMstatus_fs _)⟩
  · exact absurd hm (hplain.regs.not_isMstatus hmem)

/-! ## §3. One step -/

/-- The commit lists a write of an F register, of fflags or of frm. -/
def Commit.ListsFpWrite (commit : Commit) : Prop :=
  ∃ write ∈ commit.regWrites,
    write.type = .f ∨ write.type = .csr ∧ (write.num = Csr.fflags.num ∨ write.num = Csr.frm.num)

/-- The instruction is a CSR instruction that writes mstatus: mstatus is its CSR, and
its commit lists the write. -/
def CsrWritesMstatus (insn : DecodedInsn) (commit : Commit) : Prop :=
  OnMstatus insn ∧ ∃ write ∈ commit.regWrites, write.IsMstatus

/-- What a list asks for is logged, up to the value. -/
theorem exists_logged {writes logged : List RegWrite} {core core' : Core}
    (h : writeRegs writes core = .ok logged core') {write : RegWrite} (hmem : write ∈ writes) :
    ∃ write' ∈ logged, write'.type = write.type ∧ write'.num = write.num := by
  have hmap : (write.type, write.num) ∈ logged.map fun w => (w.type, w.num) := by
    rw [writeRegs_logged h]
    exact List.mem_map_of_mem hmem
  obtain ⟨write', hmem', heq⟩ := List.mem_map.mp hmap
  exact ⟨write', hmem', congrArg Prod.fst heq, congrArg Prod.snd heq⟩

/-- **With a write of floating-point state** FS is Dirty afterwards. -/
theorem writeRegs_dirty {core : Core} {mem : Memory} {insn : DecodedInsn}
    {result : NormalStep} (hx : execute core mem insn = .ok (.normal result))
    (hfp : writesFpState (expandFcsrWrites (dropX0Writes result.regWrites)) = true)
    {logged : List RegWrite} {core' : Core}
    (h : writeRegs (finalRegWrites core result.regWrites) (advance core result)
      = .ok logged core') :
    core'.getCsr .mstatus &&& mstatusFsMask = mstatusFsDirty := by
  obtain ⟨mid, first, rest, hasked, hdirty, -⟩ := writeRegs_append_ok h
  unfold dirtyFsWrites at hdirty
  dsimp only at hdirty
  rw [hfp, Bool.true_and] at hdirty
  by_cases hfs : dirtyMstatus (core.getCsr .mstatus) = core.getCsr .mstatus
  · -- FS is Dirty already, and no write of mstatus goes with the others
    rw [if_neg (by simp [hfs])] at hdirty
    cases hdirty
    refine writeRegs_mstatus_field (by decide) hasked ?_ ?_
    · intro write hmem htype hnum
      have hno := (mstatus_write_cases hx hmem ⟨htype, hnum⟩).1
      rw [hfp] at hno
      cases hno
    · have hold := dirtyMstatus_fs (core.getCsr .mstatus)
      rw [hfs] at hold
      exact hold
  · rw [if_pos (by simp [hfs])] at hdirty
    obtain ⟨-, rfl, -⟩ := writeRegs_csr_ok hdirty
    exact (maskMstatus_fs _ _).trans (dirtyMstatus_fs _)

/-- **What a returning step does to FS.**  Either its commit lists a write of
floating-point state and FS ends Dirty, or that state stays and FS with it, unless a CSR
instruction writes mstatus. -/
theorem step_fp_cases {insn : DecodedInsn} {m m' : Machine} {r : Option Commit}
    (h : step insn m = .ok r m') :
    ((∃ commit, r = some commit ∧ commit.ListsFpWrite) ∧
      m'.core.getCsr .mstatus &&& mstatusFsMask = mstatusFsDirty) ∨
    ((m'.core.fprs = m.core.fprs ∧ m'.core.csrs 0x003 = m.core.csrs 0x003) ∧
      (m'.core.getCsr .mstatus &&& mstatusFsMask = m.core.getCsr .mstatus &&& mstatusFsMask ∨
        ∃ commit, r = some commit ∧ CsrWritesMstatus insn commit)) := by
  rcases step_ok_cases h with ⟨exception, -, -, rfl⟩ |
    ⟨result, raw, logged, hx, -, hregs, -, rfl⟩
  · -- trap entry writes mcause, mtval, mepc and mstatus
    exact .inr ⟨⟨rfl, rfl⟩, .inl ((maskMstatus_fs _ _).trans (exceptionMstatus_fs _))⟩
  cases hfp : writesFpState (expandFcsrWrites (dropX0Writes result.regWrites)) with
  | true =>
    obtain ⟨write, hmem, hwrite⟩ := List.any_eq_true.mp hfp
    obtain ⟨write', hmem', htype, hnum⟩ :=
      exists_logged hregs (List.mem_append_left _ hmem)
    refine .inl ⟨⟨_, rfl, write', hmem', ?_⟩, writeRegs_dirty hx hfp hregs⟩
    rw [htype, hnum]
    exact (isFpStateWrite_iff write).mp hwrite
  | false =>
    -- nothing is appended: the list is the one that was asked for
    have hfinal : finalRegWrites m.core result.regWrites =
        expandFcsrWrites (dropX0Writes result.regWrites) := by
      unfold finalRegWrites dirtyFsWrites
      dsimp only
      rw [hfp]
      exact List.append_nil _
    rw [hfinal] at hregs
    have hframe := writeRegs_fp_frame hfp hregs
    refine .inr ⟨hframe, ?_⟩
    by_cases hcsr : OnMstatus insn ∧
        ∃ write ∈ expandFcsrWrites (dropX0Writes result.regWrites), write.IsMstatus
    · obtain ⟨hinsn, write, hmem, hm⟩ := hcsr
      obtain ⟨write', hmem', htype, hnum⟩ := exists_logged hregs hmem
      exact .inr ⟨_, rfl, hinsn, write', hmem', htype.trans hm.1, hnum.trans hm.2⟩
    · refine .inl (writeRegs_mstatus_field (by decide) hregs ?_ rfl)
      intro write hmem htype hnum
      rcases (mstatus_write_cases hx hmem ⟨htype, hnum⟩).2 with hinsn | hkeep
      · exact absurd ⟨hinsn, write, hmem, htype, hnum⟩ hcsr
      · exact hkeep

/-! ## §4. Every reachable state -/

/-- An F register or fcsr differs. -/
def FpStateChanged (core core' : Core) : Prop :=
  (∃ index, core'.getFpr index ≠ core.getFpr index) ∨ core'.getCsr .fcsr ≠ core.getCsr .fcsr

/-- FS = Dirty. -/
def FsDirty (core : Core) : Prop := core.getCsr .mstatus &&& mstatusFsMask = mstatusFsDirty

/-- SD = 1. -/
def SdSet (core : Core) : Prop := core.getCsr .mstatus &&& mstatusSdMask = mstatusSdMask

/-- **No change of floating-point state goes untracked**, and FS becomes Dirty only
through a listed write. -/
theorem fpState_tracked {m m' : Machine} {insn : DecodedInsn} {r : Option Commit}
    (hm : Reachable BootsZeroed StepOn m) (hinsn : Decoded insn) (h : step insn m = .ok r m') :
    (FpStateChanged m.core m'.core → FsDirty m'.core ∧ SdSet m'.core) ∧
      (¬ FsDirty m.core → FsDirty m'.core →
        ∃ commit, r = some commit ∧ (commit.ListsFpWrite ∨ CsrWritesMstatus insn commit)) := by
  have hwf := reachable_csrsWellFormed (hm.snoc ⟨hinsn, r, h⟩)
  have hsd (hfs : FsDirty m'.core) : SdSet m'.core := hwf.mstatus.sd.trans (if_pos hfs)
  rcases step_fp_cases h with ⟨⟨commit, hr, hlists⟩, hfs⟩ | ⟨⟨hfprs, hfcsr⟩, hkeep⟩
  · exact ⟨fun _ => ⟨hfs, hsd hfs⟩, fun _ _ => ⟨commit, hr, .inl hlists⟩⟩
  · constructor
    · intro hchanged
      rcases hchanged with ⟨index, hne⟩ | hne
      · exact absurd (by rw [Core.getFpr, Core.getFpr, hfprs]) hne
      · exact absurd hfcsr hne
    · intro hclean hdirty
      rcases hkeep with hfs | ⟨commit, hr, hwrites⟩
      · exact absurd (hfs.symm.trans hdirty) hclean
      · exact ⟨commit, hr, .inr hwrites⟩

/-- `csrrwi x5, fcsr, 31` right after the start: fcsr changes, FS becomes Dirty and SD is
set. -/
theorem fpState_tracked_csrrwi :
    ∃ m m' : Machine, FpStateChanged m.core m'.core ∧ ¬ FsDirty m.core ∧
      FsDirty m'.core ∧ SdSet m'.core := by
  have hinsn : Decoded (.system ⟨.csrrwi, 3, 31, 31, 5⟩) := ⟨0x003fd2f3, rfl⟩
  have hrun : ∃ r m', step (.system ⟨.csrrwi, 3, 31, 31, 5⟩) (Machine.boot [0x003fd2f3]) =
      .ok r m' ∧ m'.core.getCsr .fcsr = 31 := ⟨_, _, rfl, by decide⟩
  obtain ⟨r, m', hstep, hfcsr⟩ := hrun
  have hchanged : FpStateChanged (Machine.boot [0x003fd2f3]).core m'.core := by
    refine .inr ?_
    rw [hfcsr]
    decide
  obtain ⟨hfs, hsd⟩ :=
    (fpState_tracked (Reachable.of_init (bootsZeroed_boot _)) hinsn hstep).1 hchanged
  exact ⟨_, m', hchanged, by show ¬ _ = _; decide, hfs, hsd⟩

end ZincSim
