/-
  ZincSim.Privilege.Legal — which privilege modes a run can reach.

  MPP flows into the privilege through MRET and the privilege flows into MPP
  through trap entry, so the two are one invariant (`PrivLegal`).  `set_csr`
  legalises UXL, SD, mepc and mtvec but not MPP: a step keeps the invariant
  exactly when it does not write an unimplemented mode there
  (`step_privLegal_iff`), and a run does exactly when all its steps do
  (`run_privLegal_iff`).
-/
import ZincSim.Step.FinalWrites
import ZincSim.Step.Run

namespace ZincSim

open TransitionSystem

/-! ## §1. The invariant and the steps that break it -/

/-- Privilege and MPP name implemented modes: User or Machine. -/
structure PrivLegal (core : Core) : Prop where
  priv : core.priv = .user ∨ core.priv = .machine
  mpp : MppLegal (core.getCsr .mstatus)

instance (core : Core) : Decidable (PrivLegal core) :=
  decidable_of_iff ((core.priv = .user ∨ core.priv = .machine) ∧ MppLegal (core.getCsr .mstatus))
    ⟨fun h => ⟨h.1, h.2⟩, fun h => ⟨h.priv, h.mpp⟩⟩

/-- A CSR instruction on mstatus that brings an unimplemented mode into MPP: CSRRW
of an illegal MPP, CSRRS of one over MPP = User, CSRRC of one from MPP = Machine.
The immediates have five bits and never reach MPP. -/
def WritesIllegalMpp (core : Core) : DecodedInsn → Prop
  | .system insn =>
      insn.csr = 0x300 ∧ ¬ MppLegal (core.getGpr insn.rs1) ∧
        (insn.type = .csrrw ∨
          insn.type = .csrrs ∧ core.getCsr .mstatus &&& mstatusMppMask = 0 ∨
          insn.type = .csrrc ∧ core.getCsr .mstatus &&& mstatusMppMask = mstatusMppMask)
  | _ => False

theorem WritesIllegalMpp.isCsrInsn {core : Core} {insn : SystemInsn}
    (h : WritesIllegalMpp core (.system insn)) : isCsrInsn insn = true := by
  obtain ⟨type, csr, rs1, uimm, rd⟩ := insn
  obtain ⟨-, -, htype | ⟨htype, -⟩ | ⟨htype, -⟩⟩ := h <;> cases htype <;> rfl

/-- x0 holds a legal MPP, so an illegal source is a real register. -/
theorem rs1_ne_zero_of_illegal {core : Core} {rs1 : RegIndex}
    (h : ¬ MppLegal (core.getGpr rs1)) : rs1 ≠ 0 := by
  rintro rfl
  refine h (.inl ?_)
  rw [Core.getGpr, core.gprs_zero]
  rfl

theorem WritesIllegalMpp.writesBack {core : Core} {insn : SystemInsn}
    (h : WritesIllegalMpp core (.system insn)) : csrWritesBack insn = true := by
  obtain ⟨type, csr, rs1, uimm, rd⟩ := insn
  obtain ⟨-, hillegal, htype⟩ := h
  have hrs1 : rs1 ≠ 0 := rs1_ne_zero_of_illegal hillegal
  rcases htype with htype | ⟨htype, -⟩ | ⟨htype, -⟩ <;> cases htype
  · rfl
  · exact bne_iff_ne.mpr hrs1
  · exact bne_iff_ne.mpr hrs1

/-! ## §2. MPP of a new mstatus -/

theorem uimm_mpp (uimm : BitVec 5) :
    ((uimm.setWidth 32 : BitVec 32).setWidth 64) &&& mstatusMppMask = 0 := by
  revert uimm
  decide

theorem not_uimm_mpp (uimm : BitVec 5) :
    ((~~~(uimm.setWidth 32 : BitVec 32)).setWidth 64) &&& mstatusMppMask = mstatusMppMask := by
  revert uimm
  decide

/-- The complement of a legal MPP is a legal one. -/
theorem mppLegal_not (value : BitVec 64) : MppLegal (~~~value) ↔ MppLegal value := by
  rw [MppLegal, MppLegal, BitField.not_and_eq_zero_iff, BitField.not_and_eq_self_iff]
  exact or_comm

/-- **The MPP that a CSR instruction computes**, over a legal one. -/
theorem csrNewValue_mppLegal_iff {core : Core} {insn : SystemInsn}
    (hcsr : isCsrInsn insn = true) (hnum : insn.csr = 0x300)
    (hold : MppLegal (core.getCsr .mstatus)) :
    MppLegal (csrNewValue core insn) ↔ ¬ WritesIllegalMpp core (.system insn) := by
  obtain ⟨type, csr, rs1, uimm, rd⟩ := insn
  dsimp only at hnum
  subst hnum
  have hread : core.getCsr (Csr.ofNum ((0x300 : BitVec 12).setWidth 32)) =
      core.getCsr .mstatus := rfl
  have hfull : mstatusMppMask ≠ 0 := by decide
  cases type <;>
    simp only [csrNewValue, WritesIllegalMpp, hread, reduceCtorEq, true_and, false_and,
      false_or, or_false, and_false, not_false_eq_true, iff_true, and_true, not_not]
  -- CSRRS sets bits: over User it installs the MPP of rs1, over Machine nothing changes
  case csrrs =>
    rcases hold with hold | hold
    · rw [MppLegal.congr (BitField.or_and_of_clear _ hold)]
      exact ⟨fun hlegal h => h.1 hlegal, fun h => by_contra fun hn => h ⟨hn, hold⟩⟩
    · have hmachine := BitField.or_and_of_full (core.getGpr rs1) hold
      exact ⟨fun _ h => hfull (hold.symm.trans h.2), fun _ => .inr hmachine⟩
  -- CSRRC clears bits: over User nothing changes, over Machine it leaves the complement
  case csrrc =>
    rcases hold with hold | hold
    · have huser := BitField.and_and_of_clear (~~~core.getGpr rs1) hold
      exact ⟨fun _ h => hfull (h.2.symm.trans hold), fun _ => .inl huser⟩
    · rw [MppLegal.congr (BitField.and_and_of_full _ hold), mppLegal_not]
      exact ⟨fun hlegal h => h.1 hlegal, fun h => by_contra fun hn => h ⟨hn, hold⟩⟩
  -- the immediate forms: five bits do not reach MPP
  case csrrwi => exact .inl (uimm_mpp uimm)
  case csrrsi =>
    rw [BitVec.or_comm, MppLegal.congr (BitField.or_and_of_clear _ (uimm_mpp uimm))]
    exact hold
  case csrrci =>
    rw [BitVec.and_comm, MppLegal.congr (BitField.and_and_of_full _ (not_uimm_mpp uimm))]
    exact hold
  all_goals cases hcsr

/-! ## §3. One step -/

/-- A CSR instruction on mstatus leaves the MPP it computed. -/
theorem csrStep_mstatus {core core' : Core} {insn : SystemInsn} {logged : List RegWrite}
    (hnum : insn.csr = 0x300) (hwb : csrWritesBack insn = true)
    (h : writeRegs (finalRegWrites core (csrStep core insn).regWrites)
      (advance core (csrStep core insn)) = .ok logged core') :
    core'.csrs 0x300 = Core.maskMstatus (core.csrs 0x300) (csrNewValue core insn) := by
  rw [finalRegWrites_csrStep, csrPart_of_not_fp hwb (by rw [hnum]; decide)] at h
  obtain ⟨mid, first, rest, hfirst, hrest, -⟩ := writeRegs_append_ok h
  rw [writeRegs_rdWrites] at hfirst
  cases hfirst
  obtain ⟨-, rfl, -⟩ := writeRegs_csr_ok hrest
  rw [hnum]
  show Core.maskMstatus (((advance core _).setGpr _ _).csrs 0x300) _ = _
  rw [Core.setGpr_csrs, advance_csrs]

/-- A CSR instruction that does not write mstatus keeps its fields outside FS
and SD. -/
theorem csrStep_mstatus_field {core core' : Core} {insn : SystemInsn} {logged : List RegWrite}
    {f : BitVec 64} (hsd : f &&& mstatusSdMask = 0) (hfs : f &&& mstatusFsMask = 0)
    (hnum : insn.csr ≠ 0x300 ∨ csrWritesBack insn = false)
    (h : writeRegs (finalRegWrites core (csrStep core insn).regWrites)
      (advance core (csrStep core insn)) = .ok logged core') :
    core'.csrs 0x300 &&& f = core.csrs 0x300 &&& f := by
  refine writeRegs_mstatus_field hsd h ?_ rfl
  intro write hmem htype hmstatus
  rcases csrStep_csr_mem hmem htype with ⟨hwb, rfl⟩ | ⟨-, hnum' | hnum'⟩ | rfl
  · have hcsr : insn.csr = 0x300 := csrNum_inj hmstatus
    rcases hnum with hnum | hnum
    · exact absurd hcsr hnum
    · rw [hwb] at hnum
      cases hnum
  · exact absurd (hnum'.symm.trans hmstatus) (by decide)
  · exact absurd (hnum'.symm.trans hmstatus) (by decide)
  · exact dirtyMstatus_and _ _ hfs

/-- A plain instruction keeps the fields of mstatus outside FS and SD. -/
theorem plain_mstatus_field {core core' : Core} {result : NormalStep} {logged : List RegWrite}
    {f : BitVec 64} {nextPc : Option (BitVec 64)} (hsd : f &&& mstatusSdMask = 0)
    (hfs : f &&& mstatusFsMask = 0) (hplain : result.Plain nextPc)
    (h : writeRegs (finalRegWrites core result.regWrites) (advance core result)
      = .ok logged core') :
    core'.csrs 0x300 &&& f = core.csrs 0x300 &&& f := by
  refine writeRegs_mstatus_field hsd h ?_ rfl
  intro write hmem htype hmstatus
  rcases hplain.regs.csr_mem hmem htype with hnum | rfl
  · exact absurd (hnum.symm.trans hmstatus) (by decide)
  · exact dirtyMstatus_and _ _ hfs

/-- MRET leaves MPP = User. -/
theorem executeMret_mpp {core core' : Core} {logged : List RegWrite}
    (h : writeRegs (finalRegWrites core (executeMret core).regWrites)
      (advance core (executeMret core)) = .ok logged core') :
    core'.csrs 0x300 &&& mstatusMppMask = 0 := by
  rw [finalRegWrites_mret] at h
  obtain ⟨-, rfl, -⟩ := writeRegs_csr_ok h
  exact (maskMstatus_mpp _ _).trans (mretMstatus_mpp _)

/-- An exception comes from no illegal write of mstatus, which would have been
carried out. -/
theorem not_writesIllegalMpp_of_exception {core : Core} {mem : Memory} {insn : DecodedInsn}
    {exception : Exception} (h : execute core mem insn = .ok (.exception exception)) :
    ¬ WritesIllegalMpp core insn := by
  intro hillegal
  cases insn with
  | system si =>
    have hhas : Core.hasCsr (si.csr.setWidth 32) = true := by
      rw [hillegal.1]
      rfl
    rw [execute, executeSystem_of_csr hillegal.isCsrInsn hhas] at h
    cases h
  | _ => exact hillegal

/-- Trap entry keeps the invariant. -/
theorem PrivLegal.trapped {core : Core} (h : PrivLegal core) (exception : Exception) :
    PrivLegal (core.trapped exception) where
  priv := .inr rfl
  mpp := by
    have hmpp : (core.trapped exception).getCsr .mstatus &&& mstatusMppMask =
        core.priv.code <<< 11 :=
      (maskMstatus_mpp _ _).trans (exceptionMstatus_mpp core)
    rcases h.priv with hpriv | hpriv <;> rw [hpriv] at hmpp
    · exact .inl hmpp
    · exact .inr hmpp

/-- **One step keeps the invariant exactly when it writes no unimplemented mode
to MPP.** -/
theorem step_privLegal_iff {insn : DecodedInsn} {m m' : Machine} {r : Option Commit}
    (hm : PrivLegal m.core) (h : step insn m = .ok r m') :
    PrivLegal m'.core ↔ ¬ WritesIllegalMpp m.core insn := by
  rcases step_ok_cases h with ⟨exception, hx, -, rfl⟩ | ⟨result, raw, logged, hx, -, hregs, -, -⟩
  · exact iff_of_true (hm.trapped exception) (not_writesIllegalMpp_of_exception hx)
  -- MPP is decided by the writes of mstatus, the privilege by the result alone
  obtain ⟨-, hpriv⟩ := writeRegs_pc_priv hregs
  rw [advance_priv] at hpriv
  have hmpp : m.core.getCsr .mstatus = m.core.csrs 0x300 := rfl
  rcases execute_normal_cases hx with ⟨si, rfl, hcsr, -, rfl⟩ | ⟨si, rfl, hmret, rfl⟩ |
    ⟨hsystem, hplain⟩
  · have hpriv : m'.core.priv = m.core.priv := hpriv
    by_cases hwrites : si.csr = 0x300 ∧ csrWritesBack si = true
    · -- mstatus itself is written: its new MPP is the one the instruction computed
      obtain ⟨hnum, hwb⟩ := hwrites
      have hnew := csrStep_mstatus hnum hwb hregs
      rw [← csrNewValue_mppLegal_iff hcsr hnum hm.mpp, ← MppLegal.congr (maskMstatus_mpp _ _),
        ← hnew]
      exact ⟨fun h => h.mpp, fun h => ⟨hpriv ▸ hm.priv, h⟩⟩
    · -- another CSR, or no write: MPP stays, and the instruction is none of the illegal ones
      have hkeep := csrStep_mstatus_field (f := mstatusMppMask) (by decide) (by decide)
        (by rcases not_and_or.mp hwrites with h | h
            · exact .inl h
            · exact .inr (Bool.not_eq_true _ ▸ h)) hregs
      refine iff_of_true ⟨hpriv ▸ hm.priv, (MppLegal.congr hkeep).mpr hm.mpp⟩ ?_
      exact fun hillegal => hwrites ⟨hillegal.1, hillegal.writesBack⟩
  · -- MRET takes the privilege from the old MPP, which the invariant makes legal
    have hpriv : m'.core.priv = Privilege.ofCode
        ((m.core.getCsr .mstatus &&& mstatusMppMask) >>> 11) := hpriv
    refine iff_of_true ⟨?_, .inl (executeMret_mpp hregs)⟩ ?_
    · rw [hpriv]
      exact ofCode_of_mppLegal hm.mpp
    · rintro ⟨-, -, htype | ⟨htype, -⟩ | ⟨htype, -⟩⟩ <;> rw [hmret] at htype <;> cases htype
  · -- a plain result at most dirties FS
    have hkeep := plain_mstatus_field (f := mstatusMppMask) (by decide) (by decide) hplain hregs
    rw [hplain.priv] at hpriv
    refine iff_of_true ⟨hpriv ▸ hm.priv, (MppLegal.congr hkeep).mpr hm.mpp⟩ ?_
    intro hillegal
    cases insn with
    | system si => exact hsystem si rfl
    | _ => exact hillegal

/-! ## §4. Every run -/

theorem Boots.privLegal {m : Machine} (h : Boots m) : PrivLegal m.core := by
  obtain ⟨unassigned, initPc, h⟩ := h
  have hmstatus : m.core.getCsr .mstatus = mstatusUxlRv64 := by
    rw [h]
    rfl
  refine ⟨.inr (by rw [h]; rfl), ?_⟩
  rw [hmstatus]
  decide

/-- ECALL traps in the implemented modes. -/
theorem PrivLegal.ecall_traps {m : Machine} (h : PrivLegal m.core) {insn : SystemInsn}
    (hecall : insn.type = .ecall) : ∃ m', step (.system insn) m = .ok none m' := by
  have hx : ∃ exception,
      execute m.core m.mem (.system insn) = .ok (.exception exception) := by
    obtain ⟨type, csr, rs1, uimm, rd⟩ := insn
    cases hecall
    rcases h.priv with hpriv | hpriv
    · exact ⟨{ mcause := 8, mtval := 0 }, by simp [execute, executeSystem, isCsrInsn,
        executeEcall, hpriv]⟩
    · exact ⟨{ mcause := 11, mtval := 0 }, by simp [execute, executeSystem, isCsrInsn,
        executeEcall, hpriv]⟩
  obtain ⟨exception, hx⟩ := hx
  exact ⟨_, step_of_exception hx⟩

/-- **Only implemented modes are reached, exactly by the runs that write no other
mode to MPP**; after such a run ECALL traps. -/
theorem run_privLegal_iff {m₀ m : Machine} {trace : List (Machine × DecodedInsn)}
    (boots : Boots m₀) (run : Run StepOn m₀ trace m) :
    (((∀ p ∈ trace, PrivLegal p.1.core) ∧ PrivLegal m.core) ↔
      ∀ p ∈ trace, ¬ WritesIllegalMpp p.1.core p.2) ∧
    ((∀ p ∈ trace, ¬ WritesIllegalMpp p.1.core p.2) →
      ∀ insn : SystemInsn, insn.type = .ecall → ∃ m', step (.system insn) m = .ok none m') := by
  have hiff := run.invariant_iff (P := fun m => PrivLegal m.core)
    (C := fun m insn => ¬ WritesIllegalMpp m.core insn)
    (fun s insn t hs h => step_privLegal_iff hs h.2.choose_spec) boots.privLegal
  exact ⟨hiff, fun hC insn hecall => (hiff.mpr hC).2.ecall_traps hecall⟩

/-- A run of `lui x1, 1` and ECALL, whose state ECALL leaves in Machine mode. -/
theorem run_privLegal_iff_ecall :
    ∃ m, (∃ trace, Run StepOn (Machine.boot [0x000010b7]) trace m ∧ trace ≠ []) ∧
      ∃ m', step (.system ⟨.ecall, 0, 0, 0, 0⟩) m = .ok none m' := by
  have hstep : ∃ m, StepOn (Machine.boot [0x000010b7]) (.lui ⟨0x1000, 1⟩) m :=
    ⟨_, ⟨0x000010b7, rfl⟩, _, rfl⟩
  obtain ⟨m, hstep⟩ := hstep
  refine ⟨m, ⟨_, .cons hstep (.nil m), List.cons_ne_nil _ _⟩, ?_⟩
  exact (run_privLegal_iff (bootsZeroed_boot _).boots (.cons hstep (.nil m))).2
    (by simp [WritesIllegalMpp]) _ rfl

/-- `lui x1, 1; csrrw x0, mstatus, x1; mret` reaches privilege 2, where ECALL
throws. -/
theorem unknown_privilege_reachable :
    ¬ ∀ m, Reachable Boots StepOn m → PrivLegal m.core ∧
      ∀ insn : SystemInsn, insn.type = .ecall → ∀ what,
        execute m.core m.mem (.system insn) ≠ .error (.runtimeError what) := by
  intro h
  have hrun : ∃ m₁ m₂ m₃, StepOn (Machine.boot [0x000010b7, 0x30009073, 0x30200073])
        (.lui ⟨0x1000, 1⟩) m₁ ∧
      StepOn m₁ (.system ⟨.csrrw, 0x300, 1, 1, 0⟩) m₂ ∧
      StepOn m₂ (.system ⟨.mret, 0x302, 0, 0, 0⟩) m₃ ∧ m₃.core.priv = .unknown :=
    ⟨_, _, _, ⟨⟨0x000010b7, rfl⟩, _, rfl⟩, ⟨⟨0x30009073, rfl⟩, _, rfl⟩,
      ⟨⟨0x30200073, rfl⟩, _, rfl⟩, rfl⟩
  obtain ⟨m₁, m₂, m₃, h₁, h₂, h₃, hpriv⟩ := hrun
  have hreach := (((Reachable.of_init (bootsZeroed_boot _).boots).snoc h₁).snoc h₂).snoc h₃
  rcases (h m₃ hreach).1.priv with hlegal | hlegal <;> rw [hpriv] at hlegal <;> cases hlegal

end ZincSim
