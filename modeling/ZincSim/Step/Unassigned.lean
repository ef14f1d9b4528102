/-
  ZincSim.Step.Unassigned — runs that do not look at unassigned CSR storage.

  The constructor zeroes `gprs` and `fprs` and assigns mstatus; the rest of `csrs` holds
  what was in the memory before.  Two cores that differ there behave alike as long as no
  step reads a bit that the run has not assigned (`step_same`), for any number of steps
  (`runLoop_unassigned`).
-/
import ZincSim.Csr.Assigned
import ZincSim.Csr.Accrue
import ZincSim.Step.Fetch

namespace ZincSim

open Except (Returns returns_ok returns_error returns_bind returns_bind_any returns_ite)

/-! ## §1. What a step reads -/

/-- The bits of the old value that survive in what a CSR instruction computes. -/
def keptBits (core : Core) (insn : SystemInsn) : BitVec 64 :=
  let uimm : BitVec 32 := insn.uimm.setWidth 32
  match insn.type with
  | .csrrs | .csrrc => ~~~core.getGpr insn.rs1
  | .csrrsi => ~~~uimm.setWidth 64
  | .csrrci => (~~~uimm).setWidth 64
  | _ => 0

/-- The bits of its CSR that a CSR instruction reads: all for rd, and for the CSR itself
those that are kept and stored. -/
def csrReads (core : Core) (insn : SystemInsn) : BitVec 64 :=
  (if insn.rd = 0 then 0 else BitVec.allOnes 64) |||
    (if csrWritesBack insn then
      keptBits core insn &&& (Csr.ofNum (insn.csr.setWidth 32)).writeMask
    else 0)

/-- The step takes a trap: a misaligned access, a CSR that does not exist, or ECALL. -/
def Traps (core : Core) : DecodedInsn → Prop
  | .load insn => memAccessAligned (core.getGpr insn.rs1 + insn.imm) insn.type = .ok false
  | .store insn => memAccessAligned (core.getGpr insn.rs1 + insn.imm) insn.type = .ok false
  | .system insn =>
      (isCsrInsn insn = true ∧ Core.hasCsr (insn.csr.setWidth 32) = false) ∨
        (insn.type = .ecall ∧ (core.priv = .user ∨ core.priv = .machine))
  | _ => False

/-- **The step reads assigned bits only**: of its own CSR, of mepc for MRET, of mtvec on a
trap, of frm for dynamic rounding, and of fflags for the flags it does not raise itself. -/
structure ReadsAssigned (assigned : AssignedBits) (m : Machine) (insn : DecodedInsn) : Prop where
  csr : ∀ si, insn = .system si → isCsrInsn si = true →
    Core.hasCsr (si.csr.setWidth 32) = true →
    assigned.Covers (Csr.ofNum (si.csr.setWidth 32)) (csrReads m.core si)
  mret : ∀ si, insn = .system si → si.type = .mret → assigned.Covers .mepc (BitVec.allOnes 64)
  trap : Traps m.core insn → assigned.Covers .mtvec (~~~0b11#64)
  rounding : rmField insn = .dynamic → assigned.Covers .frm (BitVec.allOnes 64)
  flags : ∀ result ∈ fpResults m insn, result.flags ≠ 0 →
    assigned.Covers .fflags (~~~result.flags.setWidth 64)

/-! ## §2. `execute` -/

/-- The outcomes of `execute` differ at most in values of writes without effect. -/
inductive SameResult : Except Fault StepResult → Except Fault StepResult → Prop where
  | error (fault : Fault) : SameResult (.error fault) (.error fault)
  | exception (exception : Exception) :
      SameResult (.ok (.exception exception)) (.ok (.exception exception))
  | normal {result result' : NormalStep}
      (regs : List.Forall₂ SameAsked result.regWrites result'.regWrites)
      (rest : result' = { result with regWrites := result'.regWrites }) :
      SameResult (.ok (.normal result)) (.ok (.normal result'))

theorem forall₂_sameAsked_refl (writes : List RegWrite) : List.Forall₂ SameAsked writes writes :=
  List.forall₂_same.mpr fun write _ => .inl (.refl write)

theorem SameResult.of_eq {x x' : Except Fault StepResult} (h : x' = x) : SameResult x x' := by
  subst h
  cases x' with
  | error fault => exact .error fault
  | ok r =>
    cases r with
    | exception exception => exact .exception exception
    | normal result => exact .normal (forall₂_sameAsked_refl _) rfl

/-- The core with another CSR array. -/
def Core.withCsrs (core : Core) (csrs : BitVec 12 → BitVec 64) : Core := { core with csrs := csrs }

section Execute

variable {assigned : AssignedBits} {core core' : Core} {mem : Memory}

theorem Same.eq_withCsrs (h : Same assigned core core') : core' = core.withCsrs core'.csrs :=
  Core.ext h.priv h.pc h.gprs h.fprs rfl

theorem Same.mstatus_getCsr (h : Same assigned core core') :
    core'.getCsr .mstatus = core.getCsr .mstatus := h.mstatus

/-- Covered bits read alike. -/
theorem Same.getCsr (h : Same assigned core core') {csr : Csr} {mask : BitVec 64}
    (hcovers : assigned.Covers csr mask) :
    core'.getCsr csr &&& mask = core.getCsr csr &&& mask := by
  rw [getCsr_eq_shown, getCsr_eq_shown]
  exact hcovers.agree h.csrs

theorem Same.getCsr_full (h : Same assigned core core') {csr : Csr}
    (hcovers : assigned.Covers csr (BitVec.allOnes 64)) : core'.getCsr csr = core.getCsr csr := by
  have hbits := h.getCsr hcovers
  rw [BitVec.and_allOnes, BitVec.and_allOnes] at hbits
  exact hbits

/-- The new values agree on the bits stored when the kept bits of the old ones do. -/
theorem csrNewValue_same (hgprs : core'.gprs = core.gprs) {insn : SystemInsn} {mask : BitVec 64}
    (hold : core'.getCsr (Csr.ofNum (insn.csr.setWidth 32)) &&& (keptBits core insn &&& mask) =
      core.getCsr (Csr.ofNum (insn.csr.setWidth 32)) &&& (keptBits core insn &&& mask)) :
    csrNewValue core' insn &&& mask = csrNewValue core insn &&& mask := by
  have hvalue : core'.getGpr insn.rs1 = core.getGpr insn.rs1 := congrFun hgprs _
  have hset (old old' v : BitVec 64) (h : old' &&& (~~~v &&& mask) = old &&& (~~~v &&& mask)) :
      (old' ||| v) &&& mask = (old ||| v) &&& mask := by
    ext i hi
    have hbit : (old' &&& (~~~v &&& mask))[i] = (old &&& (~~~v &&& mask))[i] := by rw [h]
    simp only [BitVec.getElem_and, BitVec.getElem_or, BitVec.getElem_not] at hbit ⊢
    grind
  unfold csrNewValue
  dsimp only
  rw [hvalue]
  unfold keptBits at hold
  dsimp only at hold
  cases htype : insn.type with
  | csrrs | csrrsi =>
    rw [htype] at hold
    exact hset _ _ _ hold
  | csrrc | csrrci =>
    rw [htype] at hold
    dsimp only at hold ⊢
    rw [BitVec.and_assoc, BitVec.and_assoc, hold]
  | _ => rfl

/-- **A CSR instruction** that reads assigned bits only. -/
theorem csrStep_same (h : Same assigned core core') {insn : SystemInsn}
    (hreads : assigned.Covers (Csr.ofNum (insn.csr.setWidth 32)) (csrReads core insn)) :
    List.Forall₂ SameAsked (csrStep core insn).regWrites (csrStep core' insn).regWrites := by
  have hold := h.getCsr hreads
  -- part of what is read is read alike
  have hpart (part : BitVec 64) (hsub : part &&& csrReads core insn = part) :
      core'.getCsr (Csr.ofNum (insn.csr.setWidth 32)) &&& part =
        core.getCsr (Csr.ofNum (insn.csr.setWidth 32)) &&& part :=
    BitField.and_eq_of_subset hold hsub
  have hrd : SameAsked (xWrite insn.rd (core.getCsr (Csr.ofNum (insn.csr.setWidth 32))))
      (xWrite insn.rd (core'.getCsr (Csr.ofNum (insn.csr.setWidth 32)))) := by
    by_cases hzero : insn.rd = 0
    · refine .inr ⟨?_, ?_⟩ <;> rw [isX0Write_xWrite, hzero] <;> rfl
    · have hall := hpart (BitVec.allOnes 64) (by
        rw [csrReads, if_neg hzero, BitVec.allOnes_or, BitVec.and_self])
      rw [BitVec.and_allOnes, BitVec.and_allOnes] at hall
      rw [hall]
      exact .inl (.refl _)
  unfold csrStep csrRegWrites
  dsimp only
  refine .cons hrd ?_
  cases hwb : csrWritesBack insn with
  | false => exact .nil
  | true =>
    have hnew := csrNewValue_same h.gprs
      (hpart (keptBits core insn &&& (Csr.ofNum (insn.csr.setWidth 32)).writeMask) (by
        rw [csrReads, if_pos hwb]
        ext i hi
        simp only [BitVec.getElem_and, BitVec.getElem_or]
        grind))
    exact .cons (.inl ⟨rfl, rfl, hnew⟩) .nil

theorem resolveRounding_same (h : Same assigned core core') {rm : RoundingMode}
    (hreads : rm = .dynamic → assigned.Covers .frm (BitVec.allOnes 64)) :
    resolveRounding core' rm = resolveRounding core rm := by
  unfold resolveRounding
  by_cases hrm : rm = .dynamic
  · rw [if_pos hrm, if_pos hrm, h.getCsr_full (hreads hrm)]
  · rw [if_neg hrm, if_neg hrm]

/-- **An instruction that calls the FPU** and reads assigned bits only. -/
theorem fpStep_same (h : Same assigned core core') (insn : DecodedInsn) {result : FpResult}
    (hreads : result.flags ≠ 0 → assigned.Covers .fflags (~~~result.flags.setWidth 64)) :
    List.Forall₂ SameAsked (fpStep core insn result).regWrites
      (fpStep core' insn result).regWrites := by
  refine List.rel_append ?_ (forall₂_sameAsked_refl _)
  unfold fpFlagWrites
  by_cases hzero : result.flags = 0
  · rw [if_neg (not_not.mpr hzero), if_neg (not_not.mpr hzero)]
    exact .nil
  · rw [if_pos hzero, if_pos hzero]
    have hold := h.getCsr (hreads hzero)
    -- the flags of the result hide the bits that may differ
    have hnew : core'.getCsr .fflags ||| result.flags.setWidth 64 =
        core.getCsr .fflags ||| result.flags.setWidth 64 := by
      ext i hi
      have hbit : (core'.getCsr .fflags &&& ~~~result.flags.setWidth 64)[i] =
          (core.getCsr .fflags &&& ~~~result.flags.setWidth 64)[i] := by rw [hold]
      simp only [BitVec.getElem_and, BitVec.getElem_or, BitVec.getElem_not] at hbit ⊢
      grind
    rw [hnew]
    exact forall₂_sameAsked_refl _

/-- The result is normal, or it is an exception that `traps` allows. -/
def StepResult.TrapsOnly (traps : Prop) : StepResult → Prop
  | .normal _ => True
  | .exception _ => traps

/-- The misaligned exception of a load or store. -/
theorem access_trapsOnly {addr : BitVec 64} {type : MemAccessType} {exception : Exception}
    {rest : Except Fault StepResult} {traps : Prop}
    (htraps : memAccessAligned addr type = .ok false → traps)
    (hrest : rest.Returns (StepResult.TrapsOnly traps)) :
    (memAccessAligned addr type >>= fun aligned =>
      if (!aligned) = true then .ok (.exception exception) else rest).Returns
        (StepResult.TrapsOnly traps) := by
  refine returns_bind (Q := fun aligned => memAccessAligned addr type = .ok aligned)
    (fun _ h => h) fun aligned haligned => returns_ite (fun hnot => returns_ok ?_) fun _ => hrest
  rw [Bool.not_eq_true'] at hnot
  exact htraps (hnot ▸ haligned)

theorem executeSystem_trapsOnly (core : Core) (insn : SystemInsn) :
    (executeSystem core insn).Returns (StepResult.TrapsOnly (Traps core (.system insn))) := by
  cases hcsr : isCsrInsn insn with
  | true =>
    cases hhas : Core.hasCsr (insn.csr.setWidth 32) with
    | true =>
      rw [executeSystem_of_csr hcsr hhas]
      exact returns_ok trivial
    | false =>
      rw [executeSystem_of_no_csr hcsr hhas]
      exact returns_ok (.inl ⟨hcsr, hhas⟩)
  | false =>
    obtain ⟨type, csr, rs1, uimm, rd⟩ := insn
    cases type with
    | ecall =>
      show (executeEcall core).Returns _
      unfold executeEcall
      cases hpriv : core.priv with
      | user => exact returns_ok (.inr ⟨rfl, .inl hpriv⟩)
      | machine => exact returns_ok (.inr ⟨rfl, .inr hpriv⟩)
      | supervisor | unknown => exact returns_error _
    | mret => exact returns_ok trivial
    | ebreak | other => exact returns_error _
    | _ => cases hcsr

/-- **The traps of `execute`** are those that `Traps` names. -/
theorem execute_trapsOnly (core : Core) (mem : Memory) (insn : DecodedInsn) :
    (execute core mem insn).Returns (StepResult.TrapsOnly (Traps core insn)) := by
  cases hcall : fpuCall core insn with
  | some call =>
    rw [execute_of_fpuCall hcall]
    exact returns_bind_any fun _ => returns_bind_any fun _ => returns_ok trivial
  | none =>
    cases insn with
    | system insn => exact executeSystem_trapsOnly core insn
    | load insn =>
      exact access_trapsOnly id (returns_bind_any fun _ => returns_ok trivial)
    | store insn =>
      exact access_trapsOnly id (returns_bind_any fun _ => returns_ok trivial)
    | lui _ | auipc _ | jalr _ | storeFp _ => exact returns_ok trivial
    | jal _ => exact returns_ite (fun _ => returns_error _) fun _ => returns_ok trivial
    | branch _ | opImm _ | op _ | opImm32 _ | op32 _ | loadFp _ =>
      exact returns_bind_any fun _ => returns_ok trivial
    | miscMem insn =>
      show (executeMiscMem core insn).Returns _
      unfold executeMiscMem
      split
      · exact returns_ok trivial
      · exact returns_ok trivial
      · exact returns_error _
    | opFp insn =>
      show (executeOpFp core insn).Returns _
      unfold executeOpFp
      refine returns_bind_any fun rm => ?_
      cases htype : insn.type with
      | fclass => exact returns_bind_any fun _ => returns_ok trivial
      | moveToX | moveFromX => exact returns_ok trivial
      | _ =>
        simp only [fpuCall, htype] at hcall
        cases hcall
    | fmaFp _ => cases hcall
    | invalid => exact returns_error _

/-- **SYSTEM in cores that are the same**, when it reads assigned bits only. -/
theorem executeSystem_same (h : Same assigned core core') {insn : SystemInsn}
    (hreads : isCsrInsn insn = true → Core.hasCsr (insn.csr.setWidth 32) = true →
      assigned.Covers (Csr.ofNum (insn.csr.setWidth 32)) (csrReads core insn))
    (hmepc : insn.type = .mret → assigned.Covers .mepc (BitVec.allOnes 64)) :
    SameResult (executeSystem core insn) (executeSystem core' insn) := by
  cases hcsr : isCsrInsn insn with
  | true =>
    cases hhas : Core.hasCsr (insn.csr.setWidth 32) with
    | true =>
      rw [executeSystem_of_csr hcsr hhas, executeSystem_of_csr hcsr hhas]
      exact .normal (csrStep_same h (hreads hcsr hhas)) rfl
    | false =>
      rw [executeSystem_of_no_csr hcsr hhas, executeSystem_of_no_csr hcsr hhas]
      exact .exception _
  | false =>
    obtain ⟨type, csr, rs1, uimm, rd⟩ := insn
    cases type with
    | mret =>
      have hmret : executeMret core' = executeMret core := by
        rw [executeMret, executeMret, h.mstatus_getCsr, h.getCsr_full (hmepc rfl)]
      refine .of_eq ?_
      show Except.ok (StepResult.normal (executeMret core')) = .ok (.normal (executeMret core))
      rw [hmret]
    | ecall =>
      refine .of_eq ?_
      show executeEcall core' = executeEcall core
      rw [executeEcall, executeEcall, h.priv]
    | ebreak | other =>
      refine .of_eq ?_
      rw [h.eq_withCsrs]
      rfl
    | _ => cases hcsr

/-- **`execute` in cores that are the same**, when it reads assigned bits only. -/
theorem execute_same {m : Machine} {insn : DecodedInsn} (h : Same assigned m.core core')
    (hreads : ReadsAssigned assigned m insn) :
    SameResult (execute m.core m.mem insn) (execute core' m.mem insn) := by
  have heq := h.eq_withCsrs
  cases hcall : fpuCall m.core insn with
  | some call =>
    -- the same call in the same mode
    have hcall' : fpuCall core' insn = some call := by
      rw [← hcall, heq]
      cases insn <;> rfl
    have hflags := hreads.flags
    rw [fpResults, hcall] at hflags
    dsimp only at hflags
    rw [execute_of_fpuCall hcall, execute_of_fpuCall hcall',
      resolveRounding_same h hreads.rounding]
    cases hrm : resolveRounding m.core (rmField insn) with
    | error fault => exact .error fault
    | ok rm =>
      cases hrun : call.run rm with
      | error fault =>
        simp only [bind, Except.bind, hrun]
        exact .error fault
      | ok result =>
        simp only [hrm, bind, Except.bind, hrun] at hflags ⊢
        exact .normal (fpStep_same h insn (hflags result (List.mem_singleton_self _))) rfl
  | none =>
    cases insn with
    | system insn => exact executeSystem_same h (hreads.csr insn rfl) (hreads.mret insn rfl)
    | opFp insn =>
      -- the three that make no call still resolve their mode
      have hrm := resolveRounding_same h hreads.rounding
      refine .of_eq ?_
      show executeOpFp core' insn = executeOpFp m.core insn
      obtain ⟨type, rm, rs1, rs2, rd⟩ := insn
      have hrm : resolveRounding core' rm = resolveRounding m.core rm := hrm
      unfold executeOpFp
      dsimp only
      rw [hrm]
      cases type with
      | fclass | moveToX | moveFromX =>
        rw [heq]
        rfl
      | _ => cases hcall
    | fmaFp _ => cases hcall
    | _ =>
      refine .of_eq ?_
      rw [heq]
      rfl

end Execute

/-! ## §3. One step -/

/-- The bits assigned after a step: those of the CSRs its commit logs, or of the four that
trap entry writes. -/
def AssignedBits.after (assigned : AssignedBits) : Option Commit → AssignedBits
  | some commit => commit.regWrites.foldl .log assigned
  | none => (((assigned.assign .mcause).assign .mtval).assign .mepc).assign .mstatus

/-- The steps end alike: in one commit, one trap or one fault, with one memory and cores
that are the same. -/
def SameEnd (assigned : AssignedBits) :
    EStateM.Result Fault Machine (Option Commit) → EStateM.Result Fault Machine (Option Commit) →
      Prop
  | .ok r m, .ok r' m' => r' = r ∧ m'.mem = m.mem ∧ Same (assigned.after r) m.core m'.core
  | .error fault m, .error fault' m' => fault' = fault ∧ m'.mem = m.mem
  | _, _ => False

section Step

variable {assigned : AssignedBits} {core core' : Core}

/-- Trap entry, when mtvec is assigned. -/
theorem Same.trapped (h : Same assigned core core') (htrap : assigned.Covers .mtvec (~~~0b11#64))
    (exception : Exception) :
    Same (assigned.after none) (core.trapped exception) (core'.trapped exception) := by
  have hmstatus : core'.exceptionMstatus = core.exceptionMstatus := by
    rw [Core.exceptionMstatus, Core.exceptionMstatus, h.mstatus_getCsr, h.priv]
  -- the four CSR writes of trap entry, one after the other
  have hcsrs := (((h.withCsr .mcause exception.mcause rfl).withCsr .mtval
    exception.mtval rfl).withCsr .mepc core.pc rfl).withCsr .mstatus core.exceptionMstatus rfl
  have hcore' : (core'.trapped exception).csrs =
      ((((core'.withCsr .mcause exception.mcause).withCsr .mtval exception.mtval).withCsr .mepc
        core.pc).withCsr .mstatus core.exceptionMstatus).csrs := by
    rw [trapped_csrs, h.pc, hmstatus]
  refine ⟨rfl, h.getCsr htrap, h.gprs, h.fprs, ?_, ?_⟩
  · rw [hcore', trapped_csrs]
    exact hcsrs.mstatus
  · rw [hcore', trapped_csrs]
    exact hcsrs.csrs

/-- The core that the write-back starts from. -/
theorem Same.advance (h : Same assigned core core') {result result' : NormalStep}
    (hrest : result' = { result with regWrites := result'.regWrites }) :
    Same assigned (advance core result) (advance core' result') := by
  rw [hrest]
  refine ⟨?_, ?_, h.gprs, h.fprs, h.mstatus, h.csrs⟩
  · rw [advance_priv, advance_priv, h.priv]
  · rw [advance_pc, advance_pc, h.pc]

/-- **One step in cores that are the same**, when it reads assigned bits only. -/
theorem step_same {m : Machine} {insn : DecodedInsn} (h : Same assigned m.core core')
    (hreads : ReadsAssigned assigned m insn) :
    SameEnd assigned (step insn m) (step insn { m with core := core' }) := by
  have hsame := execute_same h hreads
  generalize hx : execute m.core m.mem insn = x at hsame
  generalize hx' : execute core' m.mem insn = x' at hsame
  cases hsame with
  | error fault =>
    rw [step_of_fault hx, step_of_fault (m := { m with core := core' }) hx']
    exact ⟨rfl, rfl⟩
  | exception exception =>
    rw [step_of_exception hx, step_of_exception (m := { m with core := core' }) hx']
    have htraps : Traps m.core insn := execute_trapsOnly m.core m.mem insn _ hx
    exact ⟨rfl, rfl, h.trapped (hreads.trap htraps) exception⟩
  | @normal result result' hregs hrest =>
    rw [step_of_normal hx, step_of_normal (m := { m with core := core' }) hx']
    dsimp only
    rw [h.pc]
    cases m.mem.get32 m.core.pc with
    | error fault => exact ⟨rfl, rfl⟩
    | ok rawInsn =>
      -- the other core runs over the same list, up to writes without effect
      have hloop := writeRegs_same (finalRegWrites m.core result.regWrites) (h.advance hrest)
      have heffect := finalRegWrites_same h.mstatus_getCsr hregs
      dsimp only
      rw [writeRegs_congr heffect]
      have hmems : result'.memWrites = result.memWrites := by rw [hrest]
      have hreads : result'.memReads = result.memReads := by rw [hrest]
      revert hloop
      cases writeRegs (finalRegWrites m.core result.regWrites) (advance m.core result) <;>
        cases writeRegs (finalRegWrites m.core result.regWrites) (advance core' result') <;>
        intro hloop
      next logged mid logged' mid' =>
        obtain ⟨rfl, hmid⟩ := hloop
        dsimp only
        rw [hmems]
        cases writeMems result.memWrites m.mem with
        | error fault mem => exact ⟨rfl, rfl⟩
        | ok _ mem =>
          refine ⟨?_, rfl, hmid⟩
          rw [commitOf, commitOf, h.pc, h.priv, hreads, hmems]
      · exact hloop.elim
      · exact hloop.elim
      · exact ⟨hloop.1.symm, rfl⟩

end Step

/-! ## §4. The loop -/

/-- What one iteration shows: a commit, or a trap with what it leaves for the handler. -/
inductive Event where
  | commit (commit : Commit)
  | trap (exception : Exception) (mepc pc : BitVec 64)
  deriving DecidableEq, Repr

def eventOf (m : Machine) : Option Commit → Event
  | some commit => .commit commit
  | none =>
      .trap { mcause := m.core.getCsr .mcause, mtval := m.core.getCsr .mtval }
        (m.core.getCsr .mepc) m.core.pc

/-- What a run of the loop shows: its commits and traps, the fault that ended it, and the
memory. -/
structure Outcome where
  events : List Event
  fault : Option Fault
  mem : Memory

/-- `n` iterations of the loop of `main`, or as many as there are up to a fault. -/
def runLoop : Nat → Machine → Outcome
  | 0, m => { events := [], fault := none, mem := m.mem }
  | n + 1, m =>
      match fetchDecodeStep m with
      | .error fault m => { events := [], fault := some fault, mem := m.mem }
      | .ok r m =>
          let rest := runLoop n m
          { rest with events := eventOf m r :: rest.events }

/-- Every one of `n` iterations reads assigned bits only. -/
def LoopReadsAssigned : Nat → AssignedBits → Machine → Prop
  | 0, _, _ => True
  | n + 1, assigned, m =>
      (∀ word insn, m.mem.get32 m.core.pc = .ok word → decode word = .ok insn →
        ReadsAssigned assigned m insn) ∧
      ∀ r m', fetchDecodeStep m = .ok r m' → LoopReadsAssigned n (assigned.after r) m'

/-- What the constructor assigns: mstatus. -/
def AssignedBits.initial : AssignedBits := Function.update (fun _ => 0) 0x300 (BitVec.allOnes 64)

theorem same_init (unassigned unassigned' : BitVec 12 → BitVec 64) (initPc : BitVec 64) :
    Same .initial (Core.init unassigned initPc) (Core.init unassigned' initPc) where
  priv := rfl
  pc := rfl
  gprs := rfl
  fprs := rfl
  mstatus := rfl
  csrs := by
    intro slot
    by_cases hslot : slot = 0x300
    · rw [hslot]
      rfl
    · rw [AssignedBits.initial, Function.update_of_ne hslot]
      exact (BitVec.and_zero).trans (BitVec.and_zero).symm

/-- The fetch and the decoding do not look at the CSRs. -/
theorem fetchDecodeStep_same {assigned : AssignedBits} {m : Machine} {core' : Core}
    (h : Same assigned m.core core')
    (hreads : ∀ word insn, m.mem.get32 m.core.pc = .ok word → decode word = .ok insn →
      ReadsAssigned assigned m insn) :
    SameEnd assigned (fetchDecodeStep m) (fetchDecodeStep { m with core := core' }) := by
  cases hword : m.mem.get32 m.core.pc with
  | error fault =>
    have hword' : m.mem.get32 core'.pc = .error fault := by rw [h.pc, hword]
    rw [fetchDecodeStep_of_fault hword,
      fetchDecodeStep_of_fault (m := { m with core := core' }) hword']
    exact ⟨rfl, rfl⟩
  | ok word =>
    have hword' : m.mem.get32 core'.pc = .ok word := by rw [h.pc, hword]
    rw [fetchDecodeStep_of_word hword,
      fetchDecodeStep_of_word (m := { m with core := core' }) hword']
    cases hdecode : decode word with
    | error fault => exact ⟨rfl, rfl⟩
    | ok insn =>
      dsimp only
      by_cases hinvalid : insn = .invalid
      · rw [if_pos hinvalid, if_pos hinvalid, h.pc]
        exact ⟨rfl, rfl⟩
      · rw [if_neg hinvalid, if_neg hinvalid]
        exact step_same h (hreads word insn hword hdecode)

/-- Trap entry assigns what the handler finds. -/
theorem eventOf_same {assigned : AssignedBits} {m m' : Machine} {r : Option Commit}
    (h : Same (assigned.after r) m.core m'.core) : eventOf m' r = eventOf m r := by
  cases r with
  | some commit => rfl
  | none =>
    have hread (csr : Csr) (hcovers : (assigned.after none).Covers csr (BitVec.allOnes 64)) :
        m'.core.getCsr csr = m.core.getCsr csr := h.getCsr_full hcovers
    have hones (x : BitVec 64) :
        (x ||| BitVec.allOnes 64) &&& BitVec.allOnes 64 =
          BitVec.allOnes 64 &&& BitVec.allOnes 64 := by
      rw [BitVec.or_allOnes]
    rw [eventOf, eventOf, h.pc, hread .mcause (hones _), hread .mtval (hones _),
      hread .mepc (hones _)]

/-- **The loop in cores that are the same**, when every iteration reads assigned bits
only. -/
theorem runLoop_same {assigned : AssignedBits} {n : Nat} {m : Machine} {core' : Core}
    (h : Same assigned m.core core') (hreads : LoopReadsAssigned n assigned m) :
    runLoop n m = runLoop n { m with core := core' } := by
  induction n generalizing assigned m core' with
  | zero => rfl
  | succ n ih =>
    obtain ⟨hnow, hlater⟩ := hreads
    have hstep := fetchDecodeStep_same h hnow
    rw [runLoop, runLoop]
    revert hstep hlater
    cases fetchDecodeStep m <;> cases fetchDecodeStep { m with core := core' } <;>
      intro hlater hstep
    next r mid r' mid' =>
      obtain ⟨rfl, hmem, hmid⟩ := hstep
      have hrest := ih hmid (hlater _ mid rfl)
      have hmid' : mid' = { mid with core := mid'.core } := by
        rw [← hmem]
      dsimp only
      rw [eventOf_same hmid, hrest, ← hmid']
    · exact hstep.elim
    · exact hstep.elim
    · obtain ⟨rfl, hmem⟩ := hstep
      dsimp only
      rw [hmem]

/-- **Runs do not depend on unassigned CSR storage** as long as no step reads it: the
commits, the traps, the fault and the memory are the same for any contents of the entries
that the constructor leaves unassigned. -/
theorem runLoop_unassigned {initPc : BitVec 64} {mem : Memory} {n : Nat}
    {unassigned : BitVec 12 → BitVec 64}
    (hreads : LoopReadsAssigned n .initial { core := Core.init unassigned initPc, mem := mem })
    (unassigned' : BitVec 12 → BitVec 64) :
    runLoop n { core := Core.init unassigned initPc, mem := mem } =
      runLoop n { core := Core.init unassigned' initPc, mem := mem } :=
  runLoop_same (same_init unassigned unassigned' initPc) hreads

/-- `csrrs x1, mscratch, x0` as the first instruction commits what the memory held. -/
theorem runLoop_reads_mscratch :
    ¬ ∀ (initPc : BitVec 64) (mem : Memory) (unassigned unassigned' : BitVec 12 → BitVec 64)
        (n : Nat),
      runLoop n { core := Core.init unassigned initPc, mem := mem } =
        runLoop n { core := Core.init unassigned' initPc, mem := mem } := by
  intro hall
  have hevents := congrArg Outcome.events
    (hall 0x80000000 (Machine.boot [0x340020f3]).mem (fun _ => 0) (fun _ => 1) 1)
  revert hevents
  decide

/-- What a CSR instruction on an existing CSR reads is its CSR. -/
theorem readsAssigned_of_csr {assigned : AssignedBits} {m : Machine} {insn : SystemInsn}
    (hcsr : isCsrInsn insn = true) (hhas : Core.hasCsr (insn.csr.setWidth 32) = true)
    (hcovers : assigned.Covers (Csr.ofNum (insn.csr.setWidth 32)) (csrReads m.core insn)) :
    ReadsAssigned assigned m (.system insn) where
  csr := by
    intro si hsi _ _
    cases hsi
    exact hcovers
  mret := by
    intro si hsi hmret
    cases hsi
    rw [isCsrInsn, hmret] at hcsr
    cases hcsr
  trap := by
    rintro (⟨-, hnot⟩ | ⟨hecall, -⟩)
    · rw [hhas] at hnot
      cases hnot
    · rw [isCsrInsn, hecall] at hcsr
      cases hcsr
  rounding := fun hrm => by cases hrm
  flags := fun _ hmem => absurd hmem List.not_mem_nil

/-- `csrrw x0, mscratch, x0; csrrs x1, mscratch, x0`: mscratch is read after it was
written. -/
theorem runLoop_unassigned_mscratch :
    runLoop 2
        { core := Core.init (fun _ => 0) 0x80000000
          mem := (Machine.boot [0x34001073, 0x340020f3]).mem } =
      runLoop 2
        { core := Core.init (fun _ => 1) 0x80000000
          mem := (Machine.boot [0x34001073, 0x340020f3]).mem } := by
  have hreads : LoopReadsAssigned 2 .initial
      { core := Core.init (fun _ => 0) 0x80000000
        mem := (Machine.boot [0x34001073, 0x340020f3]).mem } := by
    constructor
    · intro word insn hword hinsn
      cases hword
      cases hinsn
      exact readsAssigned_of_csr rfl rfl (by decide)
    · -- the state after the write
      have hrun : ∃ r m', fetchDecodeStep (Machine.boot [0x34001073, 0x340020f3]) = .ok r m' ∧
          (AssignedBits.initial.after r).Covers .mscratch
            (csrReads m'.core ⟨.csrrs, 0x340, 0, 0, 1⟩) ∧
          m'.mem.get32 m'.core.pc = .ok 0x340020f3 := ⟨_, _, rfl, by decide, rfl⟩
      obtain ⟨r, m', hstep, hcovers, hword'⟩ := hrun
      intro r₁ m₁ hstep₁
      obtain ⟨rfl, rfl⟩ : r₁ = r ∧ m₁ = m' := by
        have heq := hstep.symm.trans hstep₁
        cases heq
        exact ⟨rfl, rfl⟩
      refine ⟨fun word insn hword hinsn => ?_, fun _ _ _ => trivial⟩
      rw [hword'] at hword
      cases hword
      obtain rfl : insn = .system ⟨.csrrs, 0x340, 0, 0, 1⟩ := by
        cases hinsn
        rfl
      exact readsAssigned_of_csr rfl rfl hcovers
  exact runLoop_unassigned hreads _

end ZincSim
