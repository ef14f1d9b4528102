/-
  ZincSim.Privilege.TrapReturn — MRET undoes trap entry.

  `take_exception` pushes the interrupt enable and the privilege into MPIE and MPP, and
  MRET pops them.  Both store mstatus through `set_csr`, which merges it once more and
  computes SD again, so each field of the interrupted mstatus is followed through two
  writers and two merges.
-/
import ZincSim.Csr.Invariant
import ZincSim.Memory.Bytes
import ZincSim.Step.FinalWrites
import ZincSim.Step.Outcome

namespace ZincSim

open ZincSim.Core (maskMstatus)

/-! ## §1. The interrupted context -/

/-- The CSRs that trap entry writes. -/
def trapCsrs : List (BitVec 12) := [0x300, 0x341, 0x342, 0x343]

/-- SD says whether FS is Dirty. -/
def SdOfFs (mstatus : BitVec 64) : Prop :=
  mstatus &&& mstatusSdMask ≠ 0 ↔ mstatus &&& mstatusFsMask = mstatusFsDirty

/-- The core after trap entry, by what it was before. -/
structure TrapEntered (core : Core) (e : Exception) (core' : Core) : Prop where
  pc : core'.pc = core.getCsr .mtvec &&& ~~~0b11#64
  priv : core'.priv = .machine
  mcause : core'.getCsr .mcause = e.mcause
  mtval : core'.getCsr .mtval = e.mtval
  mepc : core'.getCsr .mepc = core.pc
  mie : core'.getCsr .mstatus &&& mstatusMieMask = 0
  mpie : core'.getCsr .mstatus &&& mstatusMpieMask ≠ 0 ↔
    core.getCsr .mstatus &&& mstatusMieMask ≠ 0
  mpp : (core'.getCsr .mstatus &&& mstatusMppMask) >>> 11 = core.priv.code
  sd : SdOfFs (core'.getCsr .mstatus)
  mstatus : core'.getCsr .mstatus &&& ~~~(mstatusStack ||| mstatusSdMask) =
    core.getCsr .mstatus &&& ~~~(mstatusStack ||| mstatusSdMask)
  csrs : ∀ n, n ∉ trapCsrs → core'.csrs n = core.csrs n
  gprs : core'.gprs = core.gprs
  fprs : core'.fprs = core.fprs

/-- The core after the return, by what it was before the trap. -/
structure Resumed (core : Core) (e : Exception) (core' : Core) : Prop where
  pc : core'.pc = core.pc
  priv : core'.priv = core.priv
  mie : core'.getCsr .mstatus &&& mstatusMieMask = core.getCsr .mstatus &&& mstatusMieMask
  mpie : core'.getCsr .mstatus &&& mstatusMpieMask = mstatusMpieMask
  mpp : core'.getCsr .mstatus &&& mstatusMppMask = 0
  mprv : core'.getCsr .mstatus &&& mstatusMprvMask =
    if core.priv = .machine then core.getCsr .mstatus &&& mstatusMprvMask else 0
  sd : SdOfFs (core'.getCsr .mstatus)
  mstatus : core'.getCsr .mstatus &&& ~~~(mstatusStack ||| mstatusMprvMask ||| mstatusSdMask) =
    core.getCsr .mstatus &&& ~~~(mstatusStack ||| mstatusMprvMask ||| mstatusSdMask)
  -- what the trap reported stays
  mcause : core'.getCsr .mcause = e.mcause
  mtval : core'.getCsr .mtval = e.mtval
  mepc : core'.getCsr .mepc = core.pc
  csrs : ∀ n, n ∉ trapCsrs → core'.csrs n = core.csrs n
  gprs : core'.gprs = core.gprs
  fprs : core'.fprs = core.fprs

/-! ## §2. Trap entry -/

section Entry

variable (core : Core) (e : Exception)

/-- `set_csr` keeps SD the one of FS. -/
theorem sdOfFs_maskMstatus (old value : BitVec 64) : SdOfFs (maskMstatus old value) := by
  unfold SdOfFs
  rw [maskMstatus_sd, maskMstatus_fs]
  by_cases hdirty : value &&& mstatusFsMask = mstatusFsDirty
  · rw [if_pos hdirty]
    exact iff_of_true (by decide) hdirty
  · rw [if_neg hdirty]
    exact iff_of_false (not_not.mpr rfl) hdirty

theorem trapped_mstatus : (core.trapped e).getCsr .mstatus =
    maskMstatus (core.getCsr .mstatus) core.exceptionMstatus := rfl

/-- A pc that is a multiple of 4 is not masked. -/
theorem mask_aligned {pc : BitVec 64} (h : 4 ∣ pc.toNat) : pc &&& ~~~0b11#64 = pc := by
  rw [BitField.and_eq_self_iff, BitVec.not_not]
  exact (dvd_four_iff pc).mpr h

/-- A CSR that trap entry does not write. -/
theorem trapped_csrs_of_not_mem {n : BitVec 12} (hn : n ∉ trapCsrs) :
    (core.trapped e).csrs n = core.csrs n := by
  simp only [trapCsrs, List.mem_cons, List.not_mem_nil, or_false, not_or] at hn
  obtain ⟨hmstatus, hmepc, hmcause, hmtval⟩ := hn
  unfold Core.trapped
  dsimp only
  rw [Function.update_of_ne hmstatus, Function.update_of_ne hmepc, Function.update_of_ne hmtval,
    Function.update_of_ne hmcause]

/-- **Trap entry** pushes MIE and the privilege, and changes nothing else of mstatus than SD. -/
theorem trapEntered (haligned : 4 ∣ core.pc.toNat) : TrapEntered core e (core.trapped e) where
  pc := rfl
  priv := rfl
  mcause := rfl
  mtval := rfl
  mepc := mask_aligned haligned
  mie := by
    rw [trapped_mstatus, maskMstatus_and_writable _ _ _ (by decide) (by decide),
      exceptionMstatus_mie]
  mpie := by
    rw [trapped_mstatus, maskMstatus_and_writable _ _ _ (by decide) (by decide),
      exceptionMstatus_mpie]
    split
    case isTrue h => exact iff_of_true (by decide) h
    case isFalse h => exact iff_of_false (not_not.mpr rfl) h
  mpp := by
    rw [trapped_mstatus, maskMstatus_mpp, exceptionMstatus_mpp]
    cases core.priv <;> decide
  sd := sdOfFs_maskMstatus _ _
  mstatus := by
    rw [trapped_mstatus]
    exact maskMstatus_and_of_eq (by decide) rfl (exceptionMstatus_and core (by decide) (by decide))
  csrs _ hn := trapped_csrs_of_not_mem core e hn
  gprs := rfl
  fprs := rfl

end Entry

/-! ## §3. Return -/

/-- The core after an MRET. -/
def Core.returned (core : Core) : Core :=
  (advance core (executeMret core)).withCsr .mstatus (mretMstatus (core.getCsr .mstatus))

theorem ofCode_code (priv : Privilege) : Privilege.ofCode priv.code = priv := by
  cases priv <;> decide

/-- A single bit is set or clear. -/
theorem and_bit {w : ℕ} (x : BitVec w) (n : ℕ) :
    (if x &&& (1#w <<< n) ≠ 0 then 1#w <<< n else 0) = x &&& (1#w <<< n) := by
  rw [← BitVec.twoPow_eq, BitVec.and_twoPow]
  split
  · split
    · rfl
    · next h => exact (not_not.mp h).symm
  · exact if_neg (not_not.mpr rfl)

section Return

variable {core core' : Core} {e : Exception}

theorem returned_mstatus : core'.returned.getCsr .mstatus =
    maskMstatus (core'.getCsr .mstatus) (mretMstatus (core'.getCsr .mstatus)) := rfl

theorem returned_csrs_of_ne {n : BitVec 12} (hn : n ≠ 0x300) :
    core'.returned.csrs n = core'.csrs n := Core.withCsr_csrs_of_ne _ _ _ hn

/-- **MRET pops what trap entry pushed.** -/
theorem resumed_of_entered (h : TrapEntered core e core') : Resumed core e core'.returned where
  pc := h.mepc
  priv := by
    show Privilege.ofCode ((core'.getCsr .mstatus &&& mstatusMppMask) >>> 11) = core.priv
    rw [h.mpp, ofCode_code]
  mie := by
    rw [returned_mstatus, maskMstatus_and_writable _ _ _ (by decide) (by decide), mretMstatus_mie]
    simp only [h.mpie]
    exact and_bit _ 3
  mpie := by
    rw [returned_mstatus, maskMstatus_and_writable _ _ _ (by decide) (by decide), mretMstatus_mpie]
  mpp := by
    rw [returned_mstatus, maskMstatus_mpp, mretMstatus_mpp]
  mprv := by
    rw [returned_mstatus, maskMstatus_and_writable _ _ _ (by decide) (by decide), mretMstatus_mprv,
      h.mpp, ofCode_code, BitField.and_eq_of_subset h.mstatus (by decide)]
  sd := sdOfFs_maskMstatus _ _
  mstatus := by
    have hkept := mretMstatus_and (core'.getCsr .mstatus)
      (show ~~~(mstatusStack ||| mstatusMprvMask ||| mstatusSdMask) &&& mstatusStack = 0 by decide)
      (by decide)
    rw [returned_mstatus, maskMstatus_and_of_eq (by decide) rfl hkept]
    exact BitField.and_eq_of_subset h.mstatus (by decide)
  mcause := h.mcause
  mtval := h.mtval
  mepc := h.mepc
  csrs n hn := by
    have hne : n ≠ 0x300 := by
      rintro rfl
      exact hn (by decide)
    rw [returned_csrs_of_ne hne, h.csrs n hn]
  gprs := h.gprs
  fprs := h.fprs

end Return

/-- The step of an MRET. -/
theorem step_mret {m : Machine} {insn : SystemInsn} (hmret : insn.type = .mret)
    {raw : BitVec 32} (hfetch : m.mem.get32 m.core.pc = .ok raw) :
    ∃ commit, step (.system insn) m = .ok (some commit) { m with core := m.core.returned } := by
  have hexec : execute m.core m.mem (.system insn) = .ok (.normal (executeMret m.core)) := by
    have hcsr : isCsrInsn insn = false := by
      unfold isCsrInsn
      rw [hmret]
    show executeSystem m.core insn = _
    unfold executeSystem
    rw [hcsr, hmret]
    rfl
  -- the log has the value that `set_csr` stored
  refine ⟨commitOf m raw [csrWrite Csr.mstatus.num (m.core.returned.getCsr .mstatus)]
    (executeMret m.core), ?_⟩
  rw [step_of_normal hexec, hfetch, finalRegWrites_mret]
  rfl

/-- **Trap entry and MRET are inverse on the interrupted context.** -/
theorem mret_undoes_trap (m : Machine) (e : Exception) (insn : SystemInsn)
    (haligned : 4 ∣ m.core.pc.toNat) (hmret : insn.type = .mret)
    (hram : m.mem.Contains 4 (m.core.getCsr .mtvec &&& ~~~0b11#64)) :
    ∃ entered, m.core.takeException e = .ok entered ∧ TrapEntered m.core e entered ∧
      ∃ commit resumed, step (.system insn) { m with core := entered } =
          .ok (some commit) { m with core := resumed } ∧ Resumed m.core e resumed := by
  have hentered := trapEntered m.core e haligned
  have hpc : 4 ∣ (m.core.getCsr .mtvec &&& ~~~0b11#64).toNat :=
    (dvd_four_iff _).mp (clearLow_and _)
  obtain ⟨raw, hraw⟩ := (get32_of_contains hram).1 hpc
  obtain ⟨commit, hstep⟩ := step_mret (m := { m with core := m.core.trapped e }) hmret hraw
  exact ⟨_, takeException_eq m.core e, hentered, commit, _, hstep, resumed_of_entered hentered⟩

/-- A trap out of User mode from the reset pc, with the handler at the next word. -/
theorem mret_undoes_trap_user :
    ∃ entered, ({ Machine.boot [0, 0x30200073] with
        core := ((Core.init (fun _ => 0) 0x80000000).withCsr .mtvec 0x80000004).setPriv .user } :
          Machine).core.takeException { mcause := 8, mtval := 0 } = .ok entered ∧
      entered.pc = 0x80000004 ∧ ∃ commit resumed,
        step (.system ⟨.mret, 0, 0, 0, 0⟩) { Machine.boot [0, 0x30200073] with core := entered } =
          .ok (some commit) { Machine.boot [0, 0x30200073] with core := resumed } ∧
        resumed.pc = 0x80000000 ∧ resumed.priv = .user := by
  obtain ⟨entered, htrap, hentered, commit, resumed, hstep, hresumed⟩ :=
    mret_undoes_trap { Machine.boot [0, 0x30200073] with
      core := ((Core.init (fun _ => 0) 0x80000000).withCsr .mtvec 0x80000004).setPriv .user }
      { mcause := 8, mtval := 0 } ⟨.mret, 0, 0, 0, 0⟩ (by decide) rfl (by decide)
  exact ⟨entered, htrap, hentered.pc, commit, resumed, hstep, hresumed.pc, hresumed.priv⟩

end ZincSim
