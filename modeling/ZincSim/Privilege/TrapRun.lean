/-
  ZincSim.Privilege.TrapRun — the trap state over a run of the loop.

  The privilege, pc, three fields of mstatus, mepc and mtvec are a trap unit with one level
  of saved context: every iteration acts on it as a trap, a return, a write of one of its
  CSRs, or not at all (`run_trapUnit`).  So MRET goes where the latest trap or write said,
  however long ago that was (`mret_goes_to_latest`), and a handler of any length that leaves
  mstatus and mepc to themselves resumes what it interrupted (`handler_resumes`).
-/
import ZincSim.Lib.TrapUnit
import ZincSim.Memory.Provenance
import ZincSim.Privilege.Legal
import ZincSim.Privilege.TrapReturn

namespace ZincSim

open TransitionSystem
open ZincSim.Core (maskMstatus)

/-! ## §1. The trap unit of a core -/

/-- A one-bit field of mstatus. -/
def statusBit (mask mstatus : BitVec 64) : Bool := mstatus &&& mask != 0

/-- The privilege that MPP names. -/
def mppPrivilege (mstatus : BitVec 64) : Privilege :=
  Privilege.ofCode ((mstatus &&& mstatusMppMask) >>> 11)

def Core.trapUnit (core : Core) : TrapUnit Privilege (BitVec 64) where
  mode := core.priv
  pc := core.pc
  enabled := statusBit mstatusMieMask (core.getCsr .mstatus)
  savedMode := mppPrivilege (core.getCsr .mstatus)
  savedPc := core.getCsr .mepc
  savedEnabled := statusBit mstatusMpieMask (core.getCsr .mstatus)
  vector := core.getCsr .mtvec &&& ~~~0b11#64

/-- What an action of a hart is: traps go to Machine mode, MRET leaves MPP = User. -/
abbrev TrapAction := TrapUnit.Action Privilege (BitVec 64)

/-- What a CSR instruction that writes does to the trap unit. -/
def csrAction (core : Core) (insn : SystemInsn) : TrapAction :=
  let value := csrNewValue core insn
  if insn.csr = 0x300 then
    .setStatus (statusBit mstatusMieMask value) (statusBit mstatusMpieMask value)
      (mppPrivilege value) (core.pc + 4)
  else if insn.csr = 0x341 then .setReturn (value &&& ~~~0b11#64) (core.pc + 4)
  else if insn.csr = 0x305 then .setVector (value &&& ~~~0b11#64) (core.pc + 4)
  else .proceed (core.pc + 4)

/-- The same for any instruction that is committed. -/
def insnAction (core : Core) : DecodedInsn → TrapAction
  | .system insn =>
      if insn.type = .mret then .ret
      else if csrWritesBack insn then csrAction core insn
      else .proceed (core.pc + 4)
  | insn => .proceed ((jumpTo core insn).getD (core.pc + 4))

/-- What an iteration does to the trap unit; one that commits nothing has trapped. -/
def loopAction (m : Machine) : Option Commit → TrapAction
  | none => .trap
  | some commit =>
      match decode commit.insn with
      | .ok insn => insnAction m.core insn
      | .error _ => .trap

/-! ## §2. What writes mstatus -/

section Status

variable {mask : BitVec 64}

theorem statusBit_congr {a b : BitVec 64} (h : a &&& mask = b &&& mask) :
    statusBit mask a = statusBit mask b := by
  unfold statusBit
  rw [h]

theorem mppPrivilege_congr {a b : BitVec 64} (h : a &&& mstatusMppMask = b &&& mstatusMppMask) :
    mppPrivilege a = mppPrivilege b := by
  unfold mppPrivilege
  rw [h]

variable (core : Core)

theorem trapUnit_trapped (e : Exception) (haligned : 4 ∣ core.pc.toNat) :
    (core.trapped e).trapUnit = core.trapUnit.act .machine .user .trap := by
  have hentered := trapEntered core e haligned
  refine TrapUnit.ext rfl rfl ?_ ?_ hentered.mepc ?_ rfl
  · -- MIE is cleared
    exact (bne_eq_false_iff_eq).mpr hentered.mie
  · show Privilege.ofCode _ = core.priv
    rw [hentered.mpp, ofCode_code]
  · exact Bool.eq_iff_iff.mpr
      (by simpa [statusBit, Core.trapUnit, TrapUnit.act] using hentered.mpie)

theorem trapUnit_returned :
    core.returned.trapUnit = core.trapUnit.act .machine .user .ret := by
  refine TrapUnit.ext rfl rfl ?_ ?_ rfl ?_ rfl
  · show statusBit mstatusMieMask (core.returned.getCsr .mstatus) =
      statusBit mstatusMpieMask (core.getCsr .mstatus)
    rw [returned_mstatus, statusBit_congr (maskMstatus_and_writable _ _ _ (by decide) (by decide))]
    unfold statusBit
    rw [mretMstatus_mie]
    split
    next h => exact (bne_iff_ne.mpr h).symm ▸ rfl
    next h => exact (bne_eq_false_iff_eq.mpr (not_not.mp h)).symm ▸ rfl
  · show mppPrivilege (core.returned.getCsr .mstatus) = .user
    unfold mppPrivilege
    rw [returned_mstatus, maskMstatus_mpp, mretMstatus_mpp]
    decide
  · show statusBit mstatusMpieMask (core.returned.getCsr .mstatus) = true
    rw [returned_mstatus, statusBit_congr (maskMstatus_and_writable _ _ _ (by decide) (by decide))]
    unfold statusBit
    rw [mretMstatus_mpie]
    decide

/-- What a step that keeps the stack of mstatus leaves of the trap unit. -/
theorem trapUnit_kept {core core' : Core} (hpriv : core'.priv = core.priv)
    (hmstatus : ∀ f, f &&& mstatusSdMask = 0 → f &&& mstatusFsMask = 0 →
      core'.csrs 0x300 &&& f = core.csrs 0x300 &&& f) :
    core'.trapUnit =
      { core.trapUnit with
        pc := core'.pc
        savedPc := core'.csrs 0x341
        vector := core'.csrs 0x305 &&& ~~~0b11#64 } := by
  refine TrapUnit.ext hpriv rfl ?_ ?_ rfl ?_ rfl
  · exact statusBit_congr (hmstatus _ (by decide) (by decide))
  · exact mppPrivilege_congr (hmstatus _ (by decide) (by decide))
  · exact statusBit_congr (hmstatus _ (by decide) (by decide))

end Status

/-! ## §3. One iteration -/

section Step

variable {core core' : Core} {logged : List RegWrite}

/-- A CSR with another number has another entry, but for the views of fcsr. -/
theorem slot_ne_of_ne {csr slot : BitVec 12} (hfcsr : slot ≠ 0x003) (h : csr ≠ slot) :
    (Csr.ofNum (csr.setWidth 32)).slot ≠ slot := by
  rw [slot_ofNum]
  split
  · exact hfcsr.symm
  · exact h

/-- **A CSR instruction** writes the CSR that it names, and keeps the rest of the trap unit. -/
theorem trapUnit_csrStep {insn : SystemInsn}
    (h : writeRegs (finalRegWrites core (csrStep core insn).regWrites)
      (advance core (csrStep core insn)) = .ok logged core') :
    core'.trapUnit = core.trapUnit.act .machine .user
      (if csrWritesBack insn then csrAction core insn else .proceed (core.pc + 4)) := by
  obtain ⟨hpc, hpriv⟩ := writeRegs_pc_priv h
  have hpc : core'.pc = core.pc + 4 := hpc
  have hpriv : core'.priv = core.priv := hpriv
  -- whatever is not written is kept
  have hmstatus (hnot : insn.csr ≠ 0x300 ∨ csrWritesBack insn = false) (f : BitVec 64)
      (hsd : f &&& mstatusSdMask = 0) (hfs : f &&& mstatusFsMask = 0) :
      core'.csrs 0x300 &&& f = core.csrs 0x300 &&& f := csrStep_mstatus_field hsd hfs hnot h
  have hmepc (hnot : insn.csr ≠ 0x341 ∨ csrWritesBack insn = false) :
      core'.csrs 0x341 = core.csrs 0x341 :=
    csrStep_csrs (by decide) (by decide) (hnot.imp_left (slot_ne_of_ne (by decide))) h
  have hmtvec (hnot : insn.csr ≠ 0x305 ∨ csrWritesBack insn = false) :
      core'.csrs 0x305 = core.csrs 0x305 :=
    csrStep_csrs (by decide) (by decide) (hnot.imp_left (slot_ne_of_ne (by decide))) h
  cases hwb : csrWritesBack insn with
  | false =>
    rw [if_neg Bool.false_ne_true, trapUnit_kept hpriv (hmstatus (.inr hwb)), hmepc (.inr hwb),
      hmtvec (.inr hwb), hpc]
    rfl
  | true =>
    rw [if_pos rfl, csrAction]
    by_cases h300 : insn.csr = 0x300
    · have hne (csr : BitVec 12) (hcsr : csr ≠ 0x300) : insn.csr ≠ csr :=
        fun heq => hcsr (heq.symm.trans h300)
      have hnew : core'.getCsr .mstatus = maskMstatus (core.csrs 0x300) (csrNewValue core insn) :=
        csrStep_mstatus h300 hwb h
      rw [if_pos h300]
      refine TrapUnit.ext hpriv hpc ?_ ?_ (hmepc (.inl (hne _ (by decide)))) ?_
        (congrArg (· &&& ~~~0b11#64) (hmtvec (.inl (hne _ (by decide)))))
      · exact statusBit_congr (hnew ▸ maskMstatus_and_writable _ _ _ (by decide) (by decide))
      · exact mppPrivilege_congr (hnew ▸ maskMstatus_mpp _ _)
      · exact statusBit_congr (hnew ▸ maskMstatus_and_writable _ _ _ (by decide) (by decide))
    · rw [if_neg h300, trapUnit_kept hpriv (hmstatus (.inl h300)), hpc]
      by_cases h341 : insn.csr = 0x341
      · have hnew := csrStep_entry (by rw [h341]; decide) hwb h
        rw [h341] at hnew
        rw [if_pos h341, hmtvec (.inl (by rw [h341]; decide))]
        exact TrapUnit.ext rfl rfl rfl rfl hnew rfl rfl
      · rw [if_neg h341, hmepc (.inl h341)]
        by_cases h305 : insn.csr = 0x305
        · have hnew := csrStep_entry (by rw [h305]; decide) hwb h
          rw [h305] at hnew
          -- mtvec is masked when it is written and again when it is read
          have hnew : core'.csrs 0x305 = csrNewValue core insn &&& ~~~0b11#64 := hnew
          have hvector :
              core'.csrs 0x305 &&& ~~~0b11#64 = csrNewValue core insn &&& ~~~0b11#64 := by
            rw [hnew, BitVec.and_assoc, BitVec.and_self]
          rw [if_pos h305]
          exact TrapUnit.ext rfl rfl rfl rfl rfl rfl hvector
        · rw [if_neg h305, hmtvec (.inl h305)]
          rfl

end Step

/-- An iteration begins at a word boundary, or the fetch fails. -/
theorem LoopStep.aligned {m m' : Machine} {r : Option Commit} (h : LoopStep m r m') :
    4 ∣ m.core.pc.toNat := by
  obtain ⟨word, insn, hword, -⟩ := h.step
  cases hcell : m.mem.getCell 4 m.core.pc with
  | ok n => exact Memory.dvd_of_getCell hcell
  | error fault =>
    rw [Memory.get32, hcell] at hword
    cases hword

/-- **One iteration acts on the trap unit**, as its commit says. -/
theorem loopStep_trapUnit (m : Machine) (r : Option Commit) (m' : Machine)
    (h : LoopStep m r m') :
    TrapUnit.Step .machine .user m.core.trapUnit (loopAction m r) m'.core.trapUnit := by
  show m'.core.trapUnit = m.core.trapUnit.act .machine .user (loopAction m r)
  obtain ⟨word, insn, hword, hinsn, hvalid, hstep⟩ := h.step
  rcases step_ok_cases hstep with
    ⟨e, -, rfl, rfl⟩ | ⟨result, raw, logged, hx, hraw, hregs, -, rfl⟩
  · exact trapUnit_trapped m.core e h.aligned
  · -- the commit has the word that was decoded
    rw [hword] at hraw
    cases hraw
    have haction : loopAction m (some (commitOf m word logged result)) =
        insnAction m.core insn := by
      show (match decode word with | .ok insn => _ | .error _ => _) = _
      rw [hinsn]
    rw [haction]
    rcases execute_normal_cases hx with ⟨si, rfl, hcsr, -, rfl⟩ | ⟨si, rfl, hmret, rfl⟩ |
      ⟨hsystem, hplain⟩
    · have hne : si.type ≠ .mret := by
        intro hmret
        rw [isCsrInsn, hmret] at hcsr
        cases hcsr
      rw [trapUnit_csrStep hregs, insnAction, if_neg hne]
    · rw [finalRegWrites_mret] at hregs
      obtain ⟨-, hcore, -⟩ := writeRegs_csr_ok hregs
      rw [insnAction, if_pos hmret, hcore]
      exact trapUnit_returned m.core
    · obtain ⟨hpc, hpriv⟩ := writeRegs_pc_priv hregs
      rw [advance_pc, hplain.pc] at hpc
      rw [advance_priv, hplain.priv] at hpriv
      rw [trapUnit_kept hpriv fun f hsd hfs => plain_mstatus_field hsd hfs hplain hregs, hpc,
        plain_csrs (by decide) (by decide) hplain hregs,
        plain_csrs (by decide) (by decide) hplain hregs]
      cases insn with
      | system si => exact absurd rfl (hsystem si)
      | _ => rfl

/-! ## §4. Handlers -/

/-- The commit is that of an MRET. -/
def Commit.IsMret (commit : Commit) : Prop :=
  ∃ insn : SystemInsn, decode commit.insn = .ok (.system insn) ∧ insn.type = .mret

/-- The commit is that of an instruction that leaves mstatus and mepc to themselves. -/
def Commit.LeavesContext (commit : Commit) : Prop :=
  ∃ insn, decode commit.insn = .ok insn ∧ ∀ si, insn = .system si →
    si.type ≠ .mret ∧ (csrWritesBack si = true → si.csr ≠ 0x300 ∧ si.csr ≠ 0x341)

/-- An iteration that commits an MRET changes no register, and no memory. -/
theorem loopStep_mret {s t : Machine} {commit : Commit} (hmret : commit.IsMret)
    (h : LoopStep s (some commit) t) : t = { s with core := s.core.returned } := by
  obtain ⟨insn, hinsn, htype⟩ := hmret
  obtain ⟨-, hword, -⟩ := h.fetched
  obtain ⟨word, insn', hword', hinsn', -, hstep⟩ := h.step
  rw [hword] at hword'
  cases hword'
  rw [hinsn] at hinsn'
  cases hinsn'
  obtain ⟨commit', hreturn⟩ := step_mret htype hword
  rw [hreturn] at hstep
  cases hstep
  rfl

theorem loopAction_keeps (s : Machine) {commit : Commit} (h : commit.LeavesContext) :
    (loopAction s (some commit)).Keeps := by
  obtain ⟨insn, hinsn, hleaves⟩ := h
  rw [loopAction, hinsn]
  cases insn with
  | system si =>
    obtain ⟨hmret, hcsr⟩ := hleaves si rfl
    dsimp only [insnAction]
    rw [if_neg hmret]
    split
    next hwb =>
      rw [csrAction, if_neg (hcsr hwb).1, if_neg (hcsr hwb).2]
      split <;> trivial
    · trivial
  | _ => trivial

/-! ## §5. Runs -/

section Runs

variable {m m' : Machine} {trace : List (Machine × Option Commit)}

/-- **A run of the loop is a run of the trap unit**, action by action: nothing but a trap,
an MRET and the CSR instructions on mstatus, mepc and mtvec touches what it holds. -/
theorem run_trapUnit (run : Run LoopStep m trace m') :
    Run (TrapUnit.Step .machine .user) m.core.trapUnit
      (trace.map fun p => (p.1.core.trapUnit, loopAction p.1 p.2)) m'.core.trapUnit :=
  run.map loopStep_trapUnit

/-- **Where MRET goes**: to the pc, privilege and interrupt enable that were saved last, by a
trap or by an instruction that wrote them, anywhere in the run. -/
theorem mret_goes_to_latest {commit : Commit} {t : Machine} (run : Run LoopStep m trace m')
    (hmret : commit.IsMret) (h : LoopStep m' (some commit) t) :
    t.core.pc = latest (fun s r => TrapUnit.savesPc s.core.trapUnit (loopAction s r)) trace
        (m.core.getCsr .mepc) ∧
      t.core.priv = latest (fun s r => TrapUnit.savesMode .user s.core.trapUnit (loopAction s r))
        trace (mppPrivilege (m.core.getCsr .mstatus)) ∧
      statusBit mstatusMieMask (t.core.getCsr .mstatus) =
        latest (fun s r => TrapUnit.savesEnabled s.core.trapUnit (loopAction s r)) trace
          (statusBit mstatusMpieMask (m.core.getCsr .mstatus)) := by
  obtain ⟨hpc, hmode, henabled⟩ := TrapUnit.returns_to_latest (run.map loopStep_trapUnit)
  rw [← trapUnit_returned] at hpc hmode henabled
  rw [loopStep_mret hmret h]
  -- from the run of the trap unit back to that of the loop
  have hback {β : Type} (sets : TrapUnit Privilege (BitVec 64) → TrapAction → Option β)
      (first : β) :=
    latest_map (f := fun s : Machine => s.core.trapUnit) (g := loopAction) sets trace first
  exact ⟨hpc.trans (hback _ _), hmode.trans (hback _ _), henabled.trans (hback _ _)⟩

/-- In Machine mode, with interrupts disabled. -/
def Shielded (core : Core) : Prop :=
  core.priv = .machine ∧ core.getCsr .mstatus &&& mstatusMieMask = 0

theorem shielded_iff {core : Core} :
    Shielded core ↔ core.trapUnit.mode = .machine ∧ core.trapUnit.enabled = false :=
  and_congr_right fun _ => bne_eq_false_iff_eq.symm

/-- What a handler meets and what its MRET gives back. -/
structure HandlerResumed (m m' t : Machine) (handler : List (Machine × Option Commit)) : Prop where
  shielded : ∀ p ∈ handler, Shielded p.1.core
  pc : t.core.pc = m.core.pc
  priv : t.core.priv = m.core.priv
  mie : t.core.getCsr .mstatus &&& mstatusMieMask = m.core.getCsr .mstatus &&& mstatusMieMask
  -- the rest is what the handler left
  gprs : t.core.gprs = m'.core.gprs
  fprs : t.core.fprs = m'.core.fprs
  mem : t.mem = m'.mem

/-- A one-bit field is decided by whether it is zero. -/
theorem and_eq_of_statusBit {n : ℕ} {a b : BitVec 64}
    (h : statusBit (1#64 <<< n) a = statusBit (1#64 <<< n) b) :
    a &&& (1#64 <<< n) = b &&& (1#64 <<< n) := by
  rw [← and_bit a n, ← and_bit b n]
  unfold statusBit at h
  have hiff : a &&& (1#64 <<< n) ≠ 0 ↔ b &&& (1#64 <<< n) ≠ 0 := by
    rw [← bne_iff_ne, ← bne_iff_ne, h]
  exact if_congr hiff rfl rfl

/-- **A handler of any length resumes what it interrupted**, if its instructions commit and
leave mstatus and mepc to themselves. -/
theorem handler_resumes {entered t : Machine} {handler : List (Machine × Option Commit)}
    {commit : Commit} (htrap : LoopStep m none entered) (run : Run LoopStep entered handler m')
    (hhandler : ∀ p ∈ handler, ∃ c : Commit, p.2 = some c ∧ c.LeavesContext)
    (hmret : commit.IsMret) (h : LoopStep m' (some commit) t) :
    HandlerResumed m m' t handler := by
  have hkeeps : ∀ p ∈ handler, (loopAction p.1 p.2).Keeps := by
    rintro ⟨s, r⟩ hp
    obtain ⟨c, rfl, hleaves⟩ := hhandler _ hp
    exact loopAction_keeps s hleaves
  have hrun := (Run.cons htrap run).map loopStep_trapUnit
  obtain ⟨hpc, hmode, henabled⟩ := TrapUnit.handler_returns hrun fun q hq => by
    obtain ⟨p, hp, rfl⟩ := List.mem_map.mp hq
    exact hkeeps p hp
  rw [← trapUnit_returned] at hpc hmode henabled
  rw [loopStep_mret hmret h]
  refine ⟨?_, hpc, hmode, and_eq_of_statusBit henabled, rfl, rfl, rfl⟩
  -- what trap entry set up is kept by every instruction of the handler
  have hentered : Shielded entered.core := by
    rw [shielded_iff, show entered.core.trapUnit = _ from loopStep_trapUnit _ _ _ htrap]
    exact ⟨rfl, rfl⟩
  have hstep (s : Machine) (r : Option Commit) (s' : Machine) (hs : Shielded s.core)
      (hkeep : (loopAction s r).Keeps) (h : LoopStep s r s') : Shielded s'.core := by
    rw [shielded_iff] at hs ⊢
    rw [show s'.core.trapUnit = _ from loopStep_trapUnit _ _ _ h]
    obtain ⟨hmode, henabled⟩ := @TrapUnit.act_of_keeps _ _ .machine .user s.core.trapUnit _ hkeep
    exact ⟨hmode.trans hs.1, henabled.trans hs.2⟩
  exact (run.invariant_of hstep hkeeps hentered).1

end Runs

/-! ## §6. ECALL from User mode -/

/-- `ecall` in User mode, with the handler `addi x1, x1, 1; mret` at the next word. -/
def userEcall : Machine :=
  { Machine.boot [0x00000073, 0x00108093, 0x30200073] with
    core := ((Core.init (fun _ => 0) 0x80000000).withCsr .mtvec 0x80000004).setPriv .user }

/-- The trap, the handler and its return. -/
theorem userEcall_run :
    ∃ entered s t c commit, LoopStep userEcall none entered ∧ LoopStep entered (some c) s ∧
      LoopStep s (some commit) t ∧ c.LeavesContext ∧ commit.IsMret := by
  have hrun : (loopTrace 3 userEcall).any (fun p =>
      decide (p.1.map (fun q => q.2.map Commit.insn) =
        [none, some 0x00108093, some 0x30200073])) = true := by decide +kernel
  obtain ⟨⟨trace, t⟩, htrace, hp⟩ := (Option.any_eq_true ..).mp hrun
  have hinsns := of_decide_eq_true hp
  cases run_of_loopTrace htrace with
  | nil => simp at hinsns
  | cons h₁ run =>
    cases run with
    | nil => simp at hinsns
    | cons h₂ run =>
      cases run with
      | nil => simp at hinsns
      | cons h₃ run =>
        simp only [List.map_cons, List.cons.injEq, Option.map_eq_none_iff,
          Option.map_eq_some_iff, List.map_eq_nil_iff] at hinsns
        obtain ⟨rfl, ⟨c, rfl, hc⟩, ⟨commit, rfl, hcommit⟩, -⟩ := hinsns
        refine ⟨_, _, _, c, commit, h₁, h₂, h₃, ?_, ?_⟩
        · exact ⟨.opImm ⟨.add, 1, 1, 1⟩, by rw [hc]; decide, fun _ h => by cases h⟩
        · exact ⟨⟨.mret, 0x302, 0, 0, 0⟩, by rw [hcommit]; decide, rfl⟩

theorem run_trapUnit_ecall :
    ∃ m : Machine, Run (TrapUnit.Step .machine .user) userEcall.core.trapUnit
      [(userEcall.core.trapUnit, .trap)] m.core.trapUnit := by
  obtain ⟨entered, -, -, -, -, htrap, -⟩ := userEcall_run
  exact ⟨entered, run_trapUnit (.cons htrap (.nil _))⟩

theorem mret_goes_to_latest_ecall :
    ∃ s t, (∃ commit, LoopStep s (some commit) t) ∧ t.core.pc = 0x80000000 ∧
      t.core.priv = .user ∧ statusBit mstatusMieMask (t.core.getCsr .mstatus) = false := by
  obtain ⟨entered, s, t, c, commit, htrap, hhandler, hreturn, hleaves, hmret⟩ := userEcall_run
  refine ⟨s, t, ⟨commit, hreturn⟩, ?_⟩
  -- the instruction of the handler saves nothing
  have hkeep := @TrapUnit.saves_of_keeps _ _ .user entered.core.trapUnit _
    (loopAction_keeps entered hleaves)
  obtain ⟨hpc, hpriv, henabled⟩ :=
    mret_goes_to_latest (.cons htrap (.cons hhandler (.nil _))) hmret hreturn
  rw [latest_cons, latest_cons, hkeep.1] at hpc
  rw [latest_cons, latest_cons, hkeep.2.1] at hpriv
  rw [latest_cons, latest_cons, hkeep.2.2] at henabled
  exact ⟨hpc, hpriv, henabled⟩

theorem handler_resumes_ecall :
    ∃ trace t, Run LoopStep userEcall trace t ∧ trace.length = 3 ∧
      t.core.pc = userEcall.core.pc ∧ t.core.priv = .user := by
  obtain ⟨entered, s, t, c, commit, htrap, hhandler, hreturn, hleaves, hmret⟩ := userEcall_run
  have hresumed := handler_resumes htrap (.cons hhandler (.nil _))
    (fun p hp => ⟨c, by rw [List.mem_singleton.mp hp], hleaves⟩) hmret hreturn
  exact ⟨_, t, .cons htrap (.cons hhandler (.cons hreturn (.nil t))), rfl, hresumed.pc,
    hresumed.priv⟩

end ZincSim
