/-
  ZincSim.Step.WriteBack — one round of the write-back loop, and what it frames.

  `writeReg_ok_cases` inverts a round; the frame lemmas say what `set_gpr`,
  `set_fpr` and the pc and privilege updates leave alone.  Trap entry is four
  CSR writes (`trapped_csrs`), so a property of the CSR array that a single
  write keeps is kept by every step (`step_csrs_invariant`).
-/
import ZincSim.Step.Outcome
import ZincSim.Csr.Access

namespace ZincSim

/-! ## §1. Frames of the setters -/

namespace Core

variable (core : Core)

@[simp] theorem setGpr_pc (index : RegIndex) (value : BitVec 64) :
    (core.setGpr index value).pc = core.pc := by
  unfold setGpr
  split <;> rfl

@[simp] theorem setGpr_priv (index : RegIndex) (value : BitVec 64) :
    (core.setGpr index value).priv = core.priv := by
  unfold setGpr
  split <;> rfl

@[simp] theorem setGpr_fprs (index : RegIndex) (value : BitVec 64) :
    (core.setGpr index value).fprs = core.fprs := by
  unfold setGpr
  split <;> rfl

@[simp] theorem setGpr_csrs (index : RegIndex) (value : BitVec 64) :
    (core.setGpr index value).csrs = core.csrs := by
  unfold setGpr
  split <;> rfl

theorem setGpr_zero (value : BitVec 64) : core.setGpr 0 value = core := dif_pos rfl

theorem setGpr_gprs_self {index : RegIndex} (h : index ≠ 0) (value : BitVec 64) :
    (core.setGpr index value).gprs index = value := by
  rw [setGpr, dif_neg h]
  exact Function.update_self ..

theorem setGpr_gprs_of_ne {index other : RegIndex} (h : other ≠ index) (value : BitVec 64) :
    (core.setGpr index value).gprs other = core.gprs other := by
  unfold setGpr
  split
  · rfl
  · exact Function.update_of_ne h ..

@[simp] theorem setFpr_pc (index : RegIndex) (value : BitVec 32) :
    (core.setFpr index value).pc = core.pc := rfl
@[simp] theorem setFpr_priv (index : RegIndex) (value : BitVec 32) :
    (core.setFpr index value).priv = core.priv := rfl
@[simp] theorem setFpr_gprs (index : RegIndex) (value : BitVec 32) :
    (core.setFpr index value).gprs = core.gprs := rfl
@[simp] theorem setFpr_csrs (index : RegIndex) (value : BitVec 32) :
    (core.setFpr index value).csrs = core.csrs := rfl

theorem setFpr_fprs_self (index : RegIndex) (value : BitVec 32) :
    (core.setFpr index value).fprs index = value := Function.update_self ..

theorem setFpr_fprs_of_ne {index other : RegIndex} (h : other ≠ index) (value : BitVec 32) :
    (core.setFpr index value).fprs other = core.fprs other := Function.update_of_ne h ..

end Core

section Advance

variable (core : Core) (result : NormalStep)

@[simp] theorem advance_pc : (advance core result).pc = result.nextPc.getD (core.pc + 4) := rfl
@[simp] theorem advance_priv :
    (advance core result).priv = result.nextPrivilege.getD core.priv := rfl
@[simp] theorem advance_gprs : (advance core result).gprs = core.gprs := rfl
@[simp] theorem advance_fprs : (advance core result).fprs = core.fprs := rfl
@[simp] theorem advance_csrs : (advance core result).csrs = core.csrs := rfl

end Advance

/-! ## §2. One round -/

/-- **What one round of the loop does**, by the kind of register it writes. -/
theorem writeReg_ok_cases {core core' : Core} {write logged : RegWrite}
    (h : writeReg core write = .ok (logged, core')) :
    (write.type = .x ∧ write.num.toNat < 32 ∧ logged = write ∧
      core' = core.setGpr (write.num.setWidth 5) write.value) ∨
    (write.type = .f ∧ write.num.toNat < 32 ∧ logged = write ∧
      core' = core.setFpr (write.num.setWidth 5) (write.value.setWidth 32)) ∨
    (write.type = .csr ∧ (Csr.ofNum write.num).writable = true ∧
      logged = { write with value := core.loggedValue (Csr.ofNum write.num) write.value } ∧
      core' = core.withCsr (Csr.ofNum write.num) write.value) := by
  obtain ⟨type, num, value⟩ := write
  cases type with
  | x =>
    simp only [writeReg] at h
    split at h
    next hnum =>
      cases h
      exact .inl ⟨rfl, hnum, rfl, rfl⟩
    · cases h
  | f =>
    simp only [writeReg] at h
    split at h
    next hnum =>
      cases h
      exact .inr (.inl ⟨rfl, hnum, rfl, rfl⟩)
    · cases h
  | csr =>
    cases hset : core.setCsr (Csr.ofNum num) value with
    | error fault =>
      simp only [writeReg, hset] at h
      cases h
    | ok p =>
      obtain ⟨stored, c⟩ := p
      -- the logged value is the one `set_csr` returned
      obtain ⟨hw, rfl, rfl⟩ := Core.setCsr_ok_iff.mp hset
      simp only [writeReg, hset] at h
      cases h
      exact .inr (.inr ⟨rfl, hw, rfl, rfl⟩)

/-- A round fails by a throw only on a CSR that `set_csr` refuses. -/
theorem writeReg_error_throw {core : Core} {write : RegWrite} {fault : Fault}
    (h : writeReg core write = .error fault) (hthrow : fault.isThrow = true) :
    write.type = .csr ∧ (Csr.ofNum write.num).writable = false := by
  obtain ⟨type, num, value⟩ := write
  cases type with
  | x | f =>
    simp only [writeReg] at h
    split at h
    · cases h
    · cases h
      -- a register number past the file is undefined behaviour, not a throw
      cases hthrow
  | csr =>
    refine ⟨rfl, ?_⟩
    cases hw : (Csr.ofNum num).writable with
    | false => rfl
    | true =>
      simp only [writeReg, Core.setCsr_of_writable _ _ _ hw] at h
      cases h

/-- No round touches pc or the privilege. -/
theorem writeReg_pc_priv {core core' : Core} {write logged : RegWrite}
    (h : writeReg core write = .ok (logged, core')) :
    core'.pc = core.pc ∧ core'.priv = core.priv := by
  rcases writeReg_ok_cases h with ⟨-, -, -, rfl⟩ | ⟨-, -, -, rfl⟩ | ⟨-, -, -, rfl⟩ <;> simp

/-- **The loop leaves pc and the privilege alone.** -/
theorem writeRegs_pc_priv {writes logged : List RegWrite} {core core' : Core}
    (h : writeRegs writes core = .ok logged core') :
    core'.pc = core.pc ∧ core'.priv = core.priv := by
  -- the invariant compares with the first core, so that rounds compose
  refine writeRegs_invariant (P := fun c => c.pc = core.pc ∧ c.priv = core.priv) ?_ h ⟨rfl, rfl⟩
  intro write _ c c' first ⟨hpc, hpriv⟩ hw
  obtain ⟨hpc', hpriv'⟩ := writeReg_pc_priv hw
  exact ⟨hpc'.trans hpc, hpriv'.trans hpriv⟩

/-- A round that writes a CSR. -/
theorem writeReg_csr {num : BitVec 32} (hw : (Csr.ofNum num).writable = true) (value : BitVec 64)
    (core : Core) :
    writeReg core ⟨.csr, num, value⟩ =
      .ok (⟨.csr, num, core.loggedValue (Csr.ofNum num) value⟩,
        core.withCsr (Csr.ofNum num) value) := by
  simp only [writeReg, Core.setCsr_of_writable core _ _ hw]
  rfl

/-- A refused CSR is refused in every core, with one text. -/
theorem writeReg_csr_refused {num : BitVec 32} (hw : (Csr.ofNum num).writable = false)
    (value : BitVec 64) : ∃ fault, ∀ core, writeReg core ⟨.csr, num, value⟩ = .error fault := by
  cases hnum : Csr.ofNum num with
  | mhartid | other => exact ⟨_, fun core => by simp only [writeReg, hnum]; rfl⟩
  | _ =>
    rw [hnum] at hw
    cases hw

/-- The register exists and can be written. -/
def RegWrite.Accepted (write : RegWrite) : Prop :=
  match write.type with
  | .csr => (Csr.ofNum write.num).writable = true
  | .x | .f => write.num.toNat < 32

theorem writeReg_of_accepted {write : RegWrite} (h : write.Accepted) (core : Core) :
    ∃ logged core', writeReg core write = .ok (logged, core') := by
  obtain ⟨type, num, value⟩ := write
  cases type with
  | x | f => exact ⟨_, _, if_pos h⟩
  | csr => exact ⟨_, _, writeReg_csr h value core⟩

/-- The loop completes when every write is accepted. -/
theorem writeRegs_of_accepted {writes : List RegWrite} (h : ∀ write ∈ writes, write.Accepted)
    (core : Core) : ∃ logged core', writeRegs writes core = .ok logged core' := by
  induction writes generalizing core with
  | nil => exact ⟨[], core, rfl⟩
  | cons write writes ih =>
    obtain ⟨hwrite, hwrites⟩ := List.forall_mem_cons.mp h
    obtain ⟨first, mid, hfirst⟩ := writeReg_of_accepted hwrite core
    obtain ⟨rest, core', hrest⟩ := ih hwrites mid
    refine ⟨first :: rest, core', ?_⟩
    rw [writeRegs_cons, hfirst]
    simp only [hrest]

/-- Writing `value'` instead of `value` makes no difference on any core. -/
def SameEffect (write write' : RegWrite) : Prop :=
  ∀ core, writeReg core write = writeReg core write'

theorem writeRegs_congr {writes writes' : List RegWrite}
    (h : List.Forall₂ SameEffect writes writes') (core : Core) :
    writeRegs writes core = writeRegs writes' core := by
  induction h generalizing core with
  | nil => rfl
  | cons hhead _ ih =>
    rw [writeRegs_cons, writeRegs_cons, hhead core]
    simp only [ih]

theorem forall₂_sameEffect_refl (writes : List RegWrite) :
    List.Forall₂ SameEffect writes writes :=
  List.forall₂_same.mpr fun _ _ _ => rfl

/-! ## §3. Two loops -/

section TwoLoops

variable {γ : Type} {R : γ → Core → Core → Prop} {n : γ → RegWrite → γ}

/-- The loops end alike in related cores: with one log, which moves the index of the
relation on, or with one fault. -/
def LoopRel (R : γ → Core → Core → Prop) (next : γ → RegWrite → γ) (a : γ) :
    EStateM.Result Fault Core (List RegWrite) → EStateM.Result Fault Core (List RegWrite) → Prop
  | .ok logged core, .ok logged' core' => logged = logged' ∧ R (logged.foldl next a) core core'
  | .error fault core, .error fault' core' => fault = fault' ∧ ∃ b, R b core core'
  | _, _ => False

/-- The rounds end alike in related cores. -/
def RoundRel (R : γ → Core → Core → Prop) (next : γ → RegWrite → γ) (a : γ) :
    Except Fault (RegWrite × Core) → Except Fault (RegWrite × Core) → Prop
  | .ok (logged, core), .ok (logged', core') => logged = logged' ∧ R (next a logged) core core'
  | .error fault, .error fault' => fault = fault'
  | _, _ => False

/-- **The rule for two loops**: rounds that end alike make loops that do. -/
theorem writeRegs_rel {writes : List RegWrite} {core core' : Core} {a : γ}
    (hround : ∀ write ∈ writes, ∀ a core core', R a core core' →
      RoundRel R n a (writeReg core write) (writeReg core' write))
    (h : R a core core') : LoopRel R n a (writeRegs writes core) (writeRegs writes core') := by
  induction writes generalizing core core' a with
  | nil => exact ⟨rfl, h⟩
  | cons write writes ih =>
    obtain ⟨hfirst, hlater⟩ := List.forall_mem_cons.mp hround
    have hone := hfirst a core core' h
    rw [writeRegs_cons, writeRegs_cons]
    revert hone
    cases writeReg core write with
    | error fault =>
      cases writeReg core' write with
      | error fault' => exact fun hfault => ⟨hfault, a, h⟩
      | ok p' => exact False.elim
    | ok p =>
      cases writeReg core' write with
      | error fault' => exact False.elim
      | ok p' =>
        intro hone
        obtain ⟨hlogged, hmid⟩ : p.1 = p'.1 ∧ R (n a p.1) p.2 p'.2 := hone
        -- the rest of the two loops is the induction hypothesis
        have hrest := ih hlater hmid
        revert hrest
        dsimp only
        rw [← hlogged]
        cases writeRegs writes p.2 <;> cases writeRegs writes p'.2 <;> intro hrest
        · exact ⟨congrArg _ hrest.1, hrest.2⟩
        · exact hrest
        · exact hrest
        · exact hrest

end TwoLoops

/-! ## §4. Properties of the CSR array -/

/-- Trap entry is four CSR writes. -/
theorem trapped_csrs (core : Core) (exception : Exception) :
    (core.trapped exception).csrs =
      ((((core.withCsr .mcause exception.mcause).withCsr .mtval exception.mtval).withCsr .mepc
        core.pc).withCsr .mstatus core.exceptionMstatus).csrs := rfl

section CsrInvariant

variable {P : (BitVec 12 → BitVec 64) → Prop}

/-- What every CSR write keeps, the write-back loop keeps. -/
theorem writeRegs_csrs_invariant
    (hwrite : ∀ (core : Core) csr value, csr.writable = true → P core.csrs →
      P (core.withCsr csr value).csrs)
    {writes logged : List RegWrite} {core core' : Core}
    (h : writeRegs writes core = .ok logged core') (hP : P core.csrs) : P core'.csrs := by
  refine writeRegs_invariant (P := fun c => P c.csrs) ?_ h hP
  intro write _ c c' first hc hw
  rcases writeReg_ok_cases hw with ⟨-, -, -, rfl⟩ | ⟨-, -, -, rfl⟩ | ⟨-, hcsr, -, rfl⟩
  · simpa using hc
  · exact hc
  · exact hwrite c _ _ hcsr hc

/-- What every CSR write keeps, trap entry keeps. -/
theorem trapped_csrs_invariant
    (hwrite : ∀ (core : Core) csr value, csr.writable = true → P core.csrs →
      P (core.withCsr csr value).csrs)
    {core : Core} (exception : Exception) (hP : P core.csrs) :
    P (core.trapped exception).csrs := by
  rw [trapped_csrs]
  exact hwrite _ _ _ rfl (hwrite _ _ _ rfl (hwrite _ _ _ rfl (hwrite _ _ _ rfl hP)))

/-- **The invariant rule for the CSR array**: what every CSR write keeps, a
returning step keeps. -/
theorem step_csrs_invariant
    (hwrite : ∀ (core : Core) csr value, csr.writable = true → P core.csrs →
      P (core.withCsr csr value).csrs)
    {insn : DecodedInsn} {m m' : Machine} {r : Option Commit}
    (h : step insn m = .ok r m') (hP : P m.core.csrs) : P m'.core.csrs := by
  rcases step_ok_cases h with ⟨exception, -, -, rfl⟩ | ⟨result, raw, logged, -, -, hregs, -, -⟩
  · exact trapped_csrs_invariant hwrite exception hP
  · exact writeRegs_csrs_invariant hwrite hregs hP

end CsrInvariant

end ZincSim
