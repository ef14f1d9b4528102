/-
  ZincSim.Csr.Invariant — the CSR array in every reachable state.

  `CsrsWellFormed` is inductive on its own: it speaks of the stored entries
  alone, every `set_csr` keeps it whatever value is written
  (`CsrsWellFormed.withCsr`), and a step changes the array through `set_csr`
  only.  `reachable_architectural` reads the architectural statement off it.
-/
import ZincSim.Csr.Mstatus
import ZincSim.Step.Run
import ZincSim.Step.WriteBack

namespace ZincSim

open TransitionSystem
open ZincSim.Core (maskMstatus)

/-! ## §1. A well-formed mstatus -/

/-- The bits of mstatus that exist in this machine. -/
def mstatusImplementedMask : BitVec 64 :=
  mstatusMieMask ||| mstatusMpieMask ||| mstatusMppMask ||| mstatusFsMask ||| mstatusMprvMask |||
    mstatusUxlMask ||| mstatusSdMask

/-- UXL = 2, SD summarises FS, and no other bit than the implemented ones is set. -/
structure MstatusWellFormed (mstatus : BitVec 64) : Prop where
  uxl : mstatus &&& mstatusUxlMask = mstatusUxlRv64
  sd : mstatus &&& mstatusSdMask =
    if mstatus &&& mstatusFsMask = mstatusFsDirty then mstatusSdMask else 0
  reserved : mstatus &&& ~~~mstatusImplementedMask = 0

theorem mstatusWellFormed_initial : MstatusWellFormed mstatusUxlRv64 where
  uxl := by decide
  sd := by decide
  reserved := by decide

/-- **`set_csr` keeps mstatus well formed**, whatever is written to it. -/
theorem MstatusWellFormed.mask {old : BitVec 64} (h : MstatusWellFormed old)
    (value : BitVec 64) : MstatusWellFormed (maskMstatus old value) where
  uxl := by
    rw [maskMstatus_and_readOnly _ _ _ (by decide) (by decide)]
    exact h.uxl
  sd := by
    rw [maskMstatus_sd, maskMstatus_fs]
  reserved := by
    rw [maskMstatus_and_readOnly _ _ _ (by decide) (by decide)]
    exact h.reserved

/-- SD is set exactly when FS is Dirty. -/
theorem MstatusWellFormed.sd_iff {mstatus : BitVec 64} (h : MstatusWellFormed mstatus) :
    mstatus &&& mstatusSdMask ≠ 0 ↔ mstatus &&& mstatusFsMask = mstatusFsDirty := by
  rw [h.sd]
  split
  next hfs => exact ⟨fun _ => hfs, fun _ => by decide⟩
  next hfs => exact ⟨fun hne => absurd rfl hne, fun heq => absurd heq hfs⟩

/-! ## §2. The array -/

/-- A CSR number behind which there is no register to write. -/
def NoCsrBehind (slot : BitVec 12) : Prop :=
  Core.hasCsr (slot.setWidth 32) = false ∨ slot = Csr.mhartid.num.setWidth 12

/-- The entries of `csrs` that the architecture constrains. -/
structure CsrsWellFormed (csrs : BitVec 12 → BitVec 64) : Prop where
  fcsr : csrs 0x003 &&& 0xff = csrs 0x003
  mstatus : MstatusWellFormed (csrs 0x300)
  mepc : csrs 0x341 &&& 0b11 = 0
  mtvec : csrs 0x305 &&& 0b11 = 0
  absent : ∀ slot, NoCsrBehind slot → csrs slot = 0

/-- The constructor assigns mstatus and no other entry. -/
theorem init_csrs_of_ne (unassigned : BitVec 12 → BitVec 64) (initPc : BitVec 64)
    {slot : BitVec 12} (h : slot ≠ 0x300) :
    (Core.init unassigned initPc).csrs slot = unassigned slot := Function.update_of_ne h ..

theorem csrsWellFormed_init (initPc : BitVec 64) :
    CsrsWellFormed (Core.init (fun _ => 0) initPc).csrs where
  fcsr := by rw [init_csrs_of_ne _ _ (by decide)]; rfl
  mstatus := mstatusWellFormed_initial
  mepc := by rw [init_csrs_of_ne _ _ (by decide)]; rfl
  mtvec := by rw [init_csrs_of_ne _ _ (by decide)]; rfl
  absent := by
    intro slot hslot
    refine init_csrs_of_ne _ _ ?_
    rintro rfl
    rcases hslot with h | h <;> revert h <;> decide

/-- The slot of a writable CSR has a register behind it. -/
theorem slot_of_writable {csr : Csr} (h : csr.writable = true) : ¬ NoCsrBehind csr.slot := by
  -- the slot of fflags and frm is that of fcsr, so this is checked CSR by CSR
  rintro (hslot | hslot) <;> revert h hslot <;> cases csr <;>
    simp [Csr.slot, Csr.num, Csr.writable, Core.hasCsr, Csr.ofNum]

/-- Clearing the two low bits gives a multiple of 4. -/
theorem clearLow_and (value : BitVec 64) : (value &&& ~~~0b11#64) &&& 0b11 = 0 :=
  BitField.clear_and_of_subset _ _ _ (by decide)

/-- **Every `set_csr` keeps the array well formed.** -/
theorem CsrsWellFormed.withCsr {core : Core} (h : CsrsWellFormed core.csrs) {csr : Csr}
    (value : BitVec 64) (hw : csr.writable = true) :
    CsrsWellFormed (core.withCsr csr value).csrs := by
  have hframe (slot : BitVec 12) (hne : slot ≠ csr.slot) :
      (core.withCsr csr value).csrs slot = core.csrs slot :=
    Core.withCsr_csrs_of_ne core csr value hne
  constructor
  -- three CSRs write this entry, with one lemma for them all
  case fcsr =>
    have hsmall : core.FcsrSmall := h.fcsr
    exact hsmall.withCsr hw
  -- each of the others has a single writer, and any other write frames it
  case mstatus =>
    by_cases hc : csr = .mstatus
    · subst hc
      exact h.mstatus.mask value
    · rw [hframe 0x300 (by cases csr <;> first | decide | exact absurd rfl hc | cases hw)]
      exact h.mstatus
  case mepc =>
    by_cases hc : csr = .mepc
    · subst hc
      exact clearLow_and value
    · rw [hframe 0x341 (by cases csr <;> first | decide | exact absurd rfl hc | cases hw)]
      exact h.mepc
  case mtvec =>
    by_cases hc : csr = .mtvec
    · subst hc
      exact clearLow_and value
    · rw [hframe 0x305 (by cases csr <;> first | decide | exact absurd rfl hc | cases hw)]
      exact h.mtvec
  -- the slot written to has a register behind it, so it is not this one
  case absent =>
    intro slot habsent
    rw [hframe slot (by rintro rfl; exact slot_of_writable hw habsent)]
    exact h.absent slot habsent

/-! ## §3. Every reachable state -/

/-- One returning step keeps the array well formed. -/
theorem step_csrsWellFormed {insn : DecodedInsn} {m m' : Machine} {r : Option Commit}
    (h : step insn m = .ok r m') (hm : CsrsWellFormed m.core.csrs) :
    CsrsWellFormed m'.core.csrs :=
  step_csrs_invariant (fun _ _ value hw hc => hc.withCsr value hw) h hm

theorem reachable_csrsWellFormed {m : Machine} (h : Reachable BootsZeroed StepOn m) :
    CsrsWellFormed m.core.csrs := by
  refine h.invariant (P := fun m => CsrsWellFormed m.core.csrs) ?_ ?_
  · rintro m ⟨initPc, hboot⟩
    rw [hboot]
    exact csrsWellFormed_init initPc
  · rintro m insn m' hm ⟨-, r, hstep⟩
    exact step_csrsWellFormed hstep hm

/-- fcsr is frm above fflags. -/
theorem FcsrSmall.split {core : Core} (h : core.FcsrSmall) :
    core.getCsr .frm ≤ 7 ∧
      core.getCsr .fcsr = core.getCsr .frm * 32 + core.getCsr .fflags := by
  have hle : (core.csrs 0x003).toNat ≤ 255 := (Core.fcsrSmall_iff core).mp h
  have hfrm : (core.csrs 0x003 >>> 5).toNat = (core.csrs 0x003).toNat / 32 := by
    rw [BitVec.toNat_ushiftRight, Nat.shiftRight_eq_div_pow]
  have hfflags : (core.csrs 0x003 &&& 0x1f).toNat = (core.csrs 0x003).toNat % 32 :=
    BitField.toNat_and_lowMask _ 5 (by decide)
  constructor
  · show core.csrs 0x003 >>> 5 ≤ 7
    rw [BitVec.le_def, hfrm]
    show _ ≤ 7
    omega
  · show core.csrs 0x003 = core.csrs 0x003 >>> 5 * 32 + (core.csrs 0x003 &&& 0x1f)
    apply BitVec.eq_of_toNat_eq
    rw [BitVec.toNat_add, BitVec.toNat_mul, hfrm, hfflags]
    show _ = (_ * 32 % 2 ^ 64 + _) % 2 ^ 64
    omega

/-- Two clear low bits make a multiple of 4. -/
theorem dvd_four_iff (value : BitVec 64) : value &&& 0b11 = 0 ↔ 4 ∣ value.toNat := by
  rw [← BitVec.toNat_inj,
    show value &&& 0b11 = value &&& BitVec.ofNat 64 (2 ^ 2 - 1) from rfl,
    BitField.toNat_and_lowMask value 2 (by decide)]
  exact Nat.dvd_iff_mod_eq_zero.symm

/-- The architectural state of a core, as `get_gpr` and `get_csr` show it and as
it is stored in the array. -/
structure Architectural (core : Core) : Prop where
  x0 : core.getGpr 0 = 0
  fcsr : core.csrs 0x003 ≤ 0xff
  frm : core.getCsr .frm ≤ 7
  fcsr_split : core.getCsr .fcsr = core.getCsr .frm * 32 + core.getCsr .fflags
  uxl : core.getCsr .mstatus &&& mstatusUxlMask = mstatusUxlRv64
  sd : core.getCsr .mstatus &&& mstatusSdMask ≠ 0 ↔
    core.getCsr .mstatus &&& mstatusFsMask = mstatusFsDirty
  reserved : core.getCsr .mstatus &&& ~~~mstatusImplementedMask = 0
  mepc : 4 ∣ (core.getCsr .mepc).toNat
  mtvec : 4 ∣ (core.getCsr .mtvec).toNat
  mhartid : core.csrs 0xf14 = 0
  absent : ∀ slot : BitVec 12, Core.hasCsr (slot.setWidth 32) = false → core.csrs slot = 0

/-- **The architectural invariant**: it holds after any sequence of steps from
`Core(init_pc)` with a zeroed CSR array. -/
theorem reachable_architectural {m : Machine} (h : Reachable BootsZeroed StepOn m) :
    Architectural m.core := by
  have hcsrs := reachable_csrsWellFormed h
  have hsmall : m.core.FcsrSmall := hcsrs.fcsr
  obtain ⟨hfrm, hsplit⟩ := FcsrSmall.split hsmall
  exact
    { x0 := m.core.gprs_zero
      fcsr := (Core.fcsrSmall_iff m.core).mp hcsrs.fcsr
      frm := hfrm
      fcsr_split := hsplit
      uxl := hcsrs.mstatus.uxl
      sd := hcsrs.mstatus.sd_iff
      reserved := hcsrs.mstatus.reserved
      mepc := (dvd_four_iff _).mp hcsrs.mepc
      mtvec := (dvd_four_iff _).mp hcsrs.mtvec
      mhartid := hcsrs.absent _ (.inr rfl)
      absent := fun slot hslot => hcsrs.absent slot (.inl hslot) }

/-- The state after `csrrwi x5, fcsr, 31`: fflags is full and FS is Dirty. -/
theorem reachable_architectural_csrrwi :
    ∃ m : Machine, m.core.getCsr .fcsr = 31 ∧ m.core.getCsr .mstatus &&& mstatusSdMask ≠ 0 ∧
      Architectural m.core := by
  have hrun : ∃ m, StepOn (Machine.boot [0x003fd2f3]) (.system ⟨.csrrwi, 3, 31, 31, 5⟩) m ∧
      m.core.getCsr .fcsr = 31 ∧ m.core.getCsr .mstatus &&& mstatusSdMask ≠ 0 :=
    ⟨_, ⟨⟨0x003fd2f3, rfl⟩, _, rfl⟩, by decide, by decide⟩
  obtain ⟨m, hstep, hfcsr, hsd⟩ := hrun
  exact ⟨m, hfcsr, hsd,
    reachable_architectural ((Reachable.of_init (bootsZeroed_boot _)).snoc hstep)⟩

end ZincSim
