/-
  ZincSim.Step.Atomic — what a step that throws leaves behind.

  `execute` changes nothing, so a throw there is harmless.  The write-back phase
  runs after pc and the privilege have been set; the only write it refuses is one
  of mhartid, which `has_csr` accepts and `set_csr` does not
  (`writeback_throw_iff`).
-/
import ZincSim.Memory.Bytes
import ZincSim.Step.FinalWrites
import ZincSim.Step.Run

namespace ZincSim

open TransitionSystem

/-! ## §1. Failing write-back -/

/-- A failing loop fails in one of its rounds. -/
theorem writeRegs_error {writes : List RegWrite} {core core' : Core} {fault : Fault}
    (h : writeRegs writes core = .error fault core') :
    core'.pc = core.pc ∧ ∃ write ∈ writes, ∃ mid, writeReg mid write = .error fault := by
  induction writes generalizing core with
  | nil => cases h
  | cons write writes ih =>
    rw [writeRegs_cons] at h
    split at h
    next f hfirst =>
      cases h
      exact ⟨rfl, write, List.mem_cons_self, _, hfirst⟩
    next first mid hfirst =>
      split at h
      next f c hrest =>
        cases h
        -- the failing round is a later one; the first left pc alone
        obtain ⟨hpc, w, hw, mid', hmid⟩ := ih hrest
        exact ⟨hpc.trans (writeReg_pc_priv hfirst).1, w, List.mem_cons_of_mem _ hw, mid', hmid⟩
      · cases h

/-- A completed loop had every one of its CSR writes accepted. -/
theorem writeRegs_ok_writable {writes logged : List RegWrite} {core core' : Core}
    (h : writeRegs writes core = .ok logged core') {write : RegWrite} (hmem : write ∈ writes)
    (htype : write.type = .csr) : (Csr.ofNum write.num).writable = true := by
  induction writes generalizing core logged with
  | nil => exact absurd hmem List.not_mem_nil
  | cons head writes ih =>
    obtain ⟨first, mid, rest, hfirst, hrest, -⟩ := writeRegs_cons_ok h
    rcases List.mem_cons.mp hmem with rfl | hmem
    · rcases writeReg_ok_cases hfirst with ⟨hx, -⟩ | ⟨hf, -⟩ | ⟨-, hw, -⟩
      · rw [htype] at hx
        cases hx
      · rw [htype] at hf
        cases hf
      · exact hw
    · exact ih hrest hmem

/-- The stores of a plain result never throw: their sizes are supported. -/
theorem PlainStores.writeMems_no_throw {stores : List MemAccess} (h : PlainStores stores)
    {mem mem' : Memory} {fault : Fault} (hfault : writeMems stores mem = .error fault mem') :
    fault.isThrow = false := by
  -- a cell write aborts or is undefined, a byte write is undefined: neither throws
  have hcell {size value : Nat} {addr : BitVec 64} {f : Fault}
      (hset : mem.setCell size addr value = .error f) : f.isThrow = false := by
    unfold Memory.setCell at hset
    split at hset
    · cases hset
      rfl
    · split at hset
      · cases hset
      · cases hset
        rfl
  have hbyte {addr : BitVec 64} {value : BitVec 8} {f : Fault}
      (hset : mem.set8 addr value = .error f) : f.isThrow = false := by
    unfold Memory.set8 at hset
    split at hset
    · cases hset
    · cases hset
      rfl
  cases h with
  | none => cases hfault
  | store access size fits =>
    obtain ⟨addr, value, sz⟩ := access
    rw [writeMems_cons] at hfault
    split at hfault
    next f hwrite =>
      cases hfault
      -- the sizes of the four store types; the throw is for any other size
      dsimp only at size
      simp only [List.mem_cons, List.not_mem_nil, or_false] at size
      rcases size with rfl | rfl | rfl | rfl
      · exact hbyte hwrite
      · exact hcell hwrite
      · exact hcell hwrite
      · exact hcell hwrite
    · cases hfault

/-! ## §2. Which step throws after a change -/

/-- A CSR instruction that writes mhartid. -/
def WritesMhartid : DecodedInsn → Prop
  | .system insn => isCsrInsn insn = true ∧ csrWritesBack insn = true ∧ insn.csr = 0xf14
  | _ => False

section Writeback

variable {core : Core} {mem : Memory} {insn : DecodedInsn} {result : NormalStep}
  (h : execute core mem insn = .ok (.normal result))

include h

/-- The one CSR that an instruction can name and `set_csr` refuses is mhartid. -/
theorem writesMhartid_of_refused {write : RegWrite}
    (hmem : write ∈ finalRegWrites core result.regWrites) (htype : write.type = .csr)
    (hw : (Csr.ofNum write.num).writable = false) : WritesMhartid insn := by
  rcases execute_normal_cases h with ⟨si, rfl, hcsr, hhas, rfl⟩ | ⟨si, rfl, hmret, rfl⟩ |
    ⟨-, hplain⟩
  · rcases csrStep_csr_mem hmem htype with ⟨hwb, rfl⟩ | ⟨-, hnum | hnum⟩ | rfl
    · -- the CSR of the instruction: it exists and is refused, so it is mhartid
      refine ⟨hcsr, hwb, ?_⟩
      by_contra hne
      have hnum : si.csr.setWidth 32 ≠ Csr.mhartid.num := fun heq => hne (csrNum_inj heq)
      have hwritable := writable_of_hasCsr hhas hnum
      rw [show (csrWrite (si.csr.setWidth 32) _).num = si.csr.setWidth 32 from rfl,
        hwritable] at hw
      cases hw
    · -- fflags, frm and mstatus are all writable
      rw [hnum] at hw
      cases hw
    · rw [hnum] at hw
      cases hw
    · cases hw
  · rw [finalRegWrites_mret, List.mem_singleton] at hmem
    subst hmem
    cases hw
  · rcases hplain.regs.csr_mem hmem htype with hnum | rfl
    · rw [hnum] at hw
      cases hw
    · cases hw

/-- The loop gets past rd, to the write of mhartid. -/
theorem writeback_throws_of_mhartid (hinsn : WritesMhartid insn) :
    ∃ fault core', writeRegs (finalRegWrites core result.regWrites) (advance core result)
        = .error fault core' ∧ fault.isThrow = true := by
  cases insn with
  | system si =>
    obtain ⟨hcsr, hwb, hnum⟩ := hinsn
    rcases executeSystem_cases h with ⟨-, -, rfl⟩ | ⟨hmret, -⟩
    · have hmid := writeRegs_rdWrites si.rd (core.getCsr (Csr.ofNum (si.csr.setWidth 32)))
        (advance core (csrStep core si))
      generalize (advance core (csrStep core si)).setGpr si.rd
        (core.getCsr (Csr.ofNum (si.csr.setWidth 32))) = mid at hmid
      have hwrite : ∃ what, writeReg mid
          (csrWrite (si.csr.setWidth 32) (csrNewValue core si)) = .error (.logicError what) := by
        rw [hnum]
        exact ⟨_, rfl⟩
      obtain ⟨what, hwrite⟩ := hwrite
      refine ⟨.logicError what, mid, ?_, rfl⟩
      rw [finalRegWrites_csrStep, csrPart_of_not_fp hwb (by rw [hnum]; decide),
        writeRegs_append, hmid]
      dsimp only
      rw [writeRegs_cons, hwrite]
    · rw [isCsrInsn, hmret] at hcsr
      cases hcsr
  | _ => exact hinsn.elim

/-- **Write-back throws** exactly in the instructions that write mhartid. -/
theorem writeback_throw_iff :
    (∃ fault core', writeRegs (finalRegWrites core result.regWrites) (advance core result)
        = .error fault core' ∧ fault.isThrow = true) ↔ WritesMhartid insn := by
  refine ⟨?_, writeback_throws_of_mhartid h⟩
  rintro ⟨fault, core', hregs, hthrow⟩
  -- a throw names a write of a CSR that `set_csr` refuses
  obtain ⟨-, write, hmem, mid, hwrite⟩ := writeRegs_error hregs
  obtain ⟨htype, hw⟩ := writeReg_error_throw hwrite hthrow
  exact writesMhartid_of_refused h hmem htype hw

end Writeback

/-! ## §3. Atomicity -/

/-- A throw of `Executor::step` leaves the machine as it was. -/
def ThrowsAtomically (insn : DecodedInsn) (m : Machine) : Prop :=
  ∀ fault m', step insn m = .error fault m' → fault.isThrow = true → m' = m

/-- Only stores write memory, and a memory write never throws. -/
theorem writeMems_no_throw {core : Core} {mem mem' : Memory} {insn : DecodedInsn}
    {result : NormalStep} {fault : Fault} (h : execute core mem insn = .ok (.normal result))
    (hfault : writeMems result.memWrites mem = .error fault mem') : fault.isThrow = false := by
  rcases execute_normal_cases h with ⟨si, -, -, -, rfl⟩ | ⟨si, -, -, rfl⟩ | ⟨-, hplain⟩
  · exact PlainStores.none.writeMems_no_throw hfault
  · exact PlainStores.none.writeMems_no_throw hfault
  · exact hplain.stores.writeMems_no_throw hfault

/-- **A throwing step is atomic**, except where it writes mhartid from an aligned
pc. -/
theorem throwsAtomically_iff {m : Machine} (insn : DecodedInsn)
    (hpc : m.mem.Contains 4 m.core.pc) :
    ThrowsAtomically insn m ↔ ¬ (WritesMhartid insn ∧ 4 ∣ m.core.pc.toNat) := by
  constructor
  · rintro hatomic ⟨hinsn, haligned⟩
    obtain ⟨result, hx⟩ : ∃ result, execute m.core m.mem insn = .ok (.normal result) := by
      cases insn with
      | system si =>
        obtain ⟨hcsr, -, hnum⟩ := hinsn
        exact ⟨_, executeSystem_of_csr hcsr (by rw [hnum]; rfl)⟩
      | _ => exact hinsn.elim
    -- the fetch inside `step` succeeds, so the step fails in write-back
    obtain ⟨raw, hraw⟩ := (get32_of_contains hpc).1 haligned
    obtain ⟨fault, core', hregs, hthrow⟩ := (writeback_throw_iff hx).mpr hinsn
    have hstep : step insn m = .error fault { m with core := core' } := by
      rw [step_of_normal hx, hraw]
      dsimp only
      rw [hregs]
    -- an atomic throw would leave pc, but it has moved on by 4
    have hsame : core'.pc = m.core.pc :=
      congrArg (fun m : Machine => m.core.pc) (hatomic fault _ hstep hthrow)
    have hadvanced : core'.pc = m.core.pc + 4 := by
      rw [(writeRegs_error hregs).1, advance_pc]
      rcases execute_normal_cases hx with ⟨si, -, -, -, rfl⟩ | ⟨si, rfl, hmret, -⟩ |
        ⟨hsystem, -⟩
      · rfl
      · have hcsr := hinsn.1
        rw [isCsrInsn, hmret] at hcsr
        cases hcsr
      · cases insn with
        | system si => exact absurd rfl (hsystem si)
        | _ => exact hinsn.elim
    have hne : m.core.pc + 4 ≠ m.core.pc := by bv_omega
    exact hne (hadvanced.symm.trans hsame)
  · intro hnot fault m' h hthrow
    rcases step_error_cases h with ⟨-, rfl⟩ | ⟨-, rfl⟩ |
      ⟨result, raw, core, hx, hraw, hregs, rfl⟩ | ⟨result, raw, logged, hx, -, -, hmems⟩
    · rfl
    · rfl
    · -- registers: the instruction writes mhartid, so pc is misaligned and the fetch aborts
      refine absurd ⟨(writeback_throw_iff hx).mp ⟨fault, core, hregs, hthrow⟩, ?_⟩ hnot
      by_contra haligned
      rw [(get32_of_contains hpc).2 haligned] at hraw
      cases hraw
    · -- memory: no store throws
      rw [writeMems_no_throw hx hmems] at hthrow
      cases hthrow

/-- EBREAK throws and changes nothing. -/
theorem throwsAtomically_ebreak :
    ∃ fault m', step (.system ⟨.ebreak, 0x001, 0, 0, 0⟩) (Machine.boot [0x00100073]) =
        .error fault m' ∧ fault.isThrow = true ∧ m' = Machine.boot [0x00100073] := by
  have hthrow : ∃ fault m',
      step (.system ⟨.ebreak, 0x001, 0, 0, 0⟩) (Machine.boot [0x00100073]) = .error fault m' ∧
        fault.isThrow = true := ⟨_, _, rfl, rfl⟩
  obtain ⟨fault, m', hstep, hfault⟩ := hthrow
  refine ⟨fault, m', hstep, hfault, ?_⟩
  exact (throwsAtomically_iff (m := Machine.boot [0x00100073]) _ (by decide)).mpr
    (by simp [WritesMhartid, isCsrInsn]) fault m' hstep hfault

/-- `csrrw x0, mhartid, x0` throws with pc already advanced. -/
theorem mhartid_write_not_atomic :
    ¬ ∀ m insn, Reachable Boots StepOn m → Decoded insn → m.mem.Contains 4 m.core.pc →
      ThrowsAtomically insn m := by
  intro h
  have hthrow : ∃ fault m',
      step (.system ⟨.csrrw, 0xf14, 0, 0, 0⟩) (Machine.boot [0xf1401073]) = .error fault m' ∧
        fault.isThrow = true ∧ m'.core.pc = 0x80000004 :=
    ⟨_, _, rfl, rfl, rfl⟩
  obtain ⟨fault, m', hstep, hfault, hpc⟩ := hthrow
  have hsame := h (Machine.boot [0xf1401073]) _ (.of_init (bootsZeroed_boot _).boots)
    ⟨0xf1401073, rfl⟩ (by decide) fault m' hstep hfault
  rw [hsame] at hpc
  revert hpc
  decide

end ZincSim
