/-
  ZincSim.Step.Writes — what an instruction can ask `step` to write.

  Said once for all eighteen overloads: a normal result is that of a CSR
  instruction, that of MRET, or a plain one, whose only CSR write is the accrual
  of fflags (`execute_normal_cases`).  Invariant proofs split on these three
  cases and never on the instruction.
-/
import ZincSim.Step.Outcome
import ZincSim.Step.FpCall
import ZincSim.Csr.Mstatus

namespace ZincSim

open Except (Returns returns_ok returns_error returns_bind returns_bind_any returns_ite)

/-! ## §1. CSR instructions -/

/-- The value a CSR instruction computes for its CSR. -/
def csrNewValue (core : Core) (insn : SystemInsn) : BitVec 64 :=
  let value := core.getGpr insn.rs1
  let oldCsrVal := core.getCsr (Csr.ofNum (insn.csr.setWidth 32))
  let uimm : BitVec 32 := insn.uimm.setWidth 32
  match insn.type with
  | .csrrs => oldCsrVal ||| value
  | .csrrc => oldCsrVal &&& ~~~value
  | .csrrw => value
  | .csrrwi => uimm.setWidth 64
  | .csrrsi => oldCsrVal ||| uimm.setWidth 64
  | .csrrci => oldCsrVal &&& (~~~uimm).setWidth 64
  | _ => 0

/-- A CSR instruction writes its CSR, and does not only read it. -/
def csrWritesBack (insn : SystemInsn) : Bool :=
  match insn.type with
  | .csrrw | .csrrwi => true
  | .csrrs | .csrrc => insn.rs1 != 0
  | .csrrsi | .csrrci => insn.uimm != 0
  | _ => false

/-- The result of a CSR instruction on an existing CSR. -/
def csrStep (core : Core) (insn : SystemInsn) : NormalStep :=
  csrRegWrites insn (core.getCsr (Csr.ofNum (insn.csr.setWidth 32))) (csrNewValue core insn)
    (csrWritesBack insn)

/-- **The six CSR instructions, in one equation.** -/
theorem executeSystem_of_csr {core : Core} {insn : SystemInsn} (hcsr : isCsrInsn insn = true)
    (hhas : Core.hasCsr (insn.csr.setWidth 32) = true) :
    executeSystem core insn = .ok (.normal (csrStep core insn)) := by
  obtain ⟨type, csr, rs1, uimm, rd⟩ := insn
  cases type <;> first | (simp [executeSystem, hhas]; rfl) | cases hcsr

theorem executeSystem_of_no_csr {core : Core} {insn : SystemInsn} (hcsr : isCsrInsn insn = true)
    (hhas : Core.hasCsr (insn.csr.setWidth 32) = false) :
    executeSystem core insn = .ok (.exception { mcause := 2, mtval := 0 }) := by
  simp [executeSystem, hcsr, hhas]

/-! ## §2. Plain results -/

/-- At most one write of fflags. -/
def flagWrites (flags : Option (BitVec 64)) : List RegWrite :=
  flags.toList.map (csrWrite Csr.fflags.num)

/-- The write lists of every instruction that is neither a CSR instruction nor
MRET: one X or F register after an accrual of fflags, or nothing. -/
inductive PlainWrites : List RegWrite → Prop where
  | none : PlainWrites []
  | x (flags : Option (BitVec 64)) (rd : RegIndex) (value : BitVec 64) :
      PlainWrites (flagWrites flags ++ [xWrite rd value])
  | f (flags : Option (BitVec 64)) (rd : RegIndex) (value : BitVec 64)
      (word : value.toNat < 2 ^ 32) : PlainWrites (flagWrites flags ++ [fWrite rd value])

/-- At most one store, of a supported size and of a value of that size. -/
inductive PlainStores : List MemAccess → Prop where
  | none : PlainStores []
  | store (access : MemAccess) (size : access.size ∈ [1, 2, 4, 8])
      (fits : access.value.toNat < 256 ^ access.size.toNat) : PlainStores [access]

/-- A result that touches no CSR but fflags, does not set the privilege and goes
on at `nextPc`. -/
structure NormalStep.Plain (nextPc : Option (BitVec 64)) (result : NormalStep) : Prop where
  regs : PlainWrites result.regWrites
  stores : PlainStores result.memWrites
  priv : result.nextPrivilege = none
  pc : result.nextPc = nextPc

/-- The step result of a plain instruction. -/
def StepResult.Plain (nextPc : Option (BitVec 64)) : StepResult → Prop
  | .normal result => result.Plain nextPc
  | .exception _ => True

/-- Where a normal result goes on, when it does not fall through. -/
def jumpTo (core : Core) : DecodedInsn → Option (BitVec 64)
  | .jal insn => some (core.pc + insn.imm)
  | .jalr insn => some (core.getGpr insn.rs1 + insn.imm)
  | .branch insn =>
      if shouldBranch core insn = .ok true then some (core.pc + insn.imm) else none
  | .system insn => if insn.type = .mret then some (core.getCsr .mepc) else none
  | _ => none

theorem fpFlagWrites_eq (core : Core) (result : FpResult) :
    ∃ flags, fpFlagWrites core result = flagWrites flags := by
  unfold fpFlagWrites
  split
  · exact ⟨some _, rfl⟩
  · exact ⟨none, rfl⟩

theorem plain_ofX (rd : RegIndex) (value : BitVec 64) :
    (StepResult.normal (.ofX rd value)).Plain none where
  regs := .x none rd value
  stores := .none
  priv := rfl
  pc := rfl

theorem plain_fpX (core : Core) (result : FpResult) (rd : RegIndex) (value : BitVec 64) :
    (StepResult.normal
      { regWrites := fpFlagWrites core result ++ [xWrite rd value] }).Plain none := by
  obtain ⟨flags, hflags⟩ := fpFlagWrites_eq core result
  rw [hflags]
  exact ⟨.x flags rd value, .none, rfl, rfl⟩

theorem plain_fpF (core : Core) (result : FpResult) (rd : RegIndex) (value : BitVec 64)
    (word : value.toNat < 2 ^ 32) :
    (StepResult.normal
      { regWrites := fpFlagWrites core result ++ [fWrite rd value] }).Plain none := by
  obtain ⟨flags, hflags⟩ := fpFlagWrites_eq core result
  rw [hflags]
  exact ⟨.f flags rd value word, .none, rfl, rfl⟩

/-! ## §3. The overloads -/

theorem executeJal_plain (core : Core) (insn : JalInsn) :
    (executeJal core insn).Returns (StepResult.Plain (jumpTo core (.jal insn))) := by
  unfold executeJal
  exact returns_ite (fun _ => returns_error _) fun _ => returns_ok ⟨.x none _ _, .none, rfl, rfl⟩

theorem executeBranch_plain (core : Core) (insn : BranchInsn) :
    (executeBranch core insn).Returns (StepResult.Plain (jumpTo core (.branch insn))) := by
  -- the decision is kept as the value of `should_branch`, which `jumpTo` asks again
  refine returns_bind (Q := fun taken => shouldBranch core insn = .ok taken)
    (fun taken h => h) fun taken htaken => returns_ok ⟨.none, .none, rfl, ?_⟩
  rw [show jumpTo core (.branch insn) =
    if shouldBranch core insn = .ok true then some (core.pc + insn.imm) else none from rfl, htaken]
  cases taken <;> rfl

theorem executeLoad_plain (core : Core) (mem : Memory) (insn : LoadInsn) :
    (executeLoad core mem insn).Returns (StepResult.Plain none) := by
  unfold executeLoad
  refine returns_bind_any fun aligned => returns_ite (fun _ => returns_ok trivial) fun _ => ?_
  exact returns_bind_any fun data => returns_ok ⟨.x none _ _, .none, rfl, rfl⟩

/-- The stored value is cut to the size of the access. -/
theorem storeData_fits (core : Core) (insn : StoreInsn) (val : BitVec 64) :
    (storeData core insn val).Returns fun p =>
      p.2 ∈ [1, 2, 4, 8] ∧ p.1.toNat < 256 ^ p.2.toNat := by
  -- the masks of the source are `2 ^ k - 1` for the width of the store
  have hmask (k : Nat) (hk : k ≤ 64) :
      (val &&& BitVec.ofNat 64 (2 ^ k - 1)).toNat < 2 ^ k := by
    rw [BitField.toNat_and_lowMask val k hk]
    exact Nat.mod_lt _ (Nat.two_pow_pos k)
  unfold storeData
  cases insn.type with
  | b => exact returns_ok ⟨by simp, hmask 8 (by decide)⟩
  | h => exact returns_ok ⟨by simp, hmask 16 (by decide)⟩
  | w => exact returns_ok ⟨by simp, hmask 32 (by decide)⟩
  | d => exact returns_ok ⟨by simp, val.isLt⟩
  | _ => exact returns_error _

theorem executeStore_plain (core : Core) (insn : StoreInsn) :
    (executeStore core insn).Returns (StepResult.Plain none) := by
  unfold executeStore
  refine returns_bind_any fun aligned => returns_ite (fun _ => returns_ok trivial) fun _ => ?_
  exact returns_bind (storeData_fits _ _ _) fun p hp =>
    returns_ok ⟨.none, .store _ hp.1 hp.2, rfl, rfl⟩

theorem toNat_setWidth_word (word : BitVec 32) : (word.setWidth 64).toNat < 2 ^ 32 := by
  have h := word.isLt
  rw [BitVec.toNat_setWidth]
  omega

theorem executeLoadFp_plain (core : Core) (mem : Memory) (insn : LoadFpInsn) :
    (executeLoadFp core mem insn).Returns (StepResult.Plain none) :=
  returns_bind_any fun data => returns_ok
    ⟨.f none _ _ (toNat_setWidth_word data), .none, rfl, rfl⟩

theorem executeStoreFp_plain (core : Core) (insn : StoreFpInsn) :
    (executeStoreFp core insn).Returns (StepResult.Plain none) :=
  returns_ok ⟨.none, .store _ (by simp) (toNat_setWidth_word _), rfl, rfl⟩

theorem executeMiscMem_plain (core : Core) (insn : MiscMemInsn) :
    (executeMiscMem core insn).Returns (StepResult.Plain none) := by
  unfold executeMiscMem
  split
  · exact returns_ok ⟨.none, .none, rfl, rfl⟩
  · exact returns_ok ⟨.none, .none, rfl, rfl⟩
  · exact returns_error _

/-- **An instruction that calls the FPU** has a plain result. -/
theorem execute_fpuCall_plain {core : Core} {insn : DecodedInsn} {call : FpuCall}
    (h : fpuCall core insn = some call) (mem : Memory) :
    (execute core mem insn).Returns (StepResult.Plain none) := by
  rw [execute_of_fpuCall h]
  refine returns_bind_any fun rm => ?_
  -- an F result must be a word; an X result of a conversion may use all 64 bits
  obtain ⟨rd, hdest⟩ | ⟨rd, hdest, hword⟩ := fpDest_cases h
  · refine returns_bind_any fun result => returns_ok ?_
    unfold fpStep
    rw [hdest]
    exact plain_fpX core result rd _
  · refine returns_bind (FpuCall.run_isWord hword rm) fun result hresult => returns_ok ?_
    unfold fpStep
    rw [hdest]
    exact plain_fpF core result rd _ hresult

theorem executeOpFp_plain (core : Core) (mem : Memory) (insn : OpFpInsn) :
    (execute core mem (.opFp insn)).Returns (StepResult.Plain none) := by
  cases hcall : fpuCall core (.opFp insn) with
  | some call => exact execute_fpuCall_plain hcall mem
  | none =>
    -- the three operations that compute their result themselves
    show (executeOpFp core insn).Returns _
    unfold executeOpFp
    refine returns_bind_any fun rm => ?_
    cases htype : insn.type with
    | fclass => exact returns_bind_any fun operand => returns_ok ⟨.x none _ _, .none, rfl, rfl⟩
    | moveToX => exact returns_ok ⟨.x none _ _, .none, rfl, rfl⟩
    | moveFromX => exact returns_ok ⟨.f none _ _ (toNat_setWidth_word _), .none, rfl, rfl⟩
    | _ =>
      simp only [fpuCall, htype] at hcall
      cases hcall

/-- A system instruction with a normal result is a CSR instruction or MRET. -/
theorem executeSystem_cases {core : Core} {insn : SystemInsn} {result : NormalStep}
    (h : executeSystem core insn = .ok (.normal result)) :
    (isCsrInsn insn = true ∧ Core.hasCsr (insn.csr.setWidth 32) = true ∧
      result = csrStep core insn) ∨
    (insn.type = .mret ∧ result = executeMret core) := by
  cases hcsr : isCsrInsn insn with
  | true =>
    cases hhas : Core.hasCsr (insn.csr.setWidth 32) with
    | true =>
      rw [executeSystem_of_csr hcsr hhas] at h
      cases h
      exact .inl ⟨rfl, rfl, rfl⟩
    | false =>
      rw [executeSystem_of_no_csr hcsr hhas] at h
      cases h
  | false =>
    obtain ⟨type, csr, rs1, uimm, rd⟩ := insn
    cases type with
    | mret =>
      cases h
      exact .inr ⟨rfl, rfl⟩
    | ecall =>
      simp only [executeSystem, isCsrInsn, executeEcall, Bool.false_and, Bool.false_eq_true,
        if_false] at h
      -- ECALL takes an exception or throws in every mode
      cases hpriv : core.priv <;> rw [hpriv] at h <;> cases h
    | ebreak | other => cases h
    | _ => cases hcsr

/-- **What a normal result can ask for**, over every instruction. -/
theorem execute_normal_cases {core : Core} {mem : Memory} {insn : DecodedInsn}
    {result : NormalStep} (h : execute core mem insn = .ok (.normal result)) :
    (∃ si, insn = .system si ∧ isCsrInsn si = true ∧
      Core.hasCsr (si.csr.setWidth 32) = true ∧ result = csrStep core si) ∨
    (∃ si, insn = .system si ∧ si.type = .mret ∧ result = executeMret core) ∨
    ((∀ si, insn ≠ .system si) ∧ result.Plain (jumpTo core insn)) := by
  -- the hypothesis on the instruction is carried along, as each case refines it
  have plain {i : DecodedInsn} (hi : ∀ si, i ≠ .system si)
      (hx : (execute core mem i).Returns (StepResult.Plain (jumpTo core i)))
      (h : execute core mem i = .ok (.normal result)) :
      (∀ si, i ≠ .system si) ∧ result.Plain (jumpTo core i) := ⟨hi, hx _ h⟩
  cases insn with
  | system si =>
    rcases executeSystem_cases h with ⟨hcsr, hhas, hr⟩ | ⟨hmret, hr⟩
    · exact .inl ⟨si, rfl, hcsr, hhas, hr⟩
    · exact .inr (.inl ⟨si, rfl, hmret, hr⟩)
  | lui _ | auipc _ => exact .inr (.inr (plain (by simp) (returns_ok (plain_ofX _ _)) h))
  | jal _ => exact .inr (.inr (plain (by simp) (executeJal_plain _ _) h))
  | jalr _ =>
    exact .inr (.inr (plain (by simp) (returns_ok ⟨.x none _ _, .none, rfl, rfl⟩) h))
  | branch _ => exact .inr (.inr (plain (by simp) (executeBranch_plain _ _) h))
  | load _ => exact .inr (.inr (plain (by simp) (executeLoad_plain _ _ _) h))
  | store _ => exact .inr (.inr (plain (by simp) (executeStore_plain _ _) h))
  | opImm _ | op _ =>
    exact .inr (.inr (plain (by simp)
      (returns_bind_any fun value => returns_ok (plain_ofX _ value)) h))
  | opImm32 _ | op32 _ =>
    exact .inr (.inr (plain (by simp)
      (returns_bind_any fun value => returns_ok (plain_ofX _ (value.signExtend 64))) h))
  | miscMem _ => exact .inr (.inr (plain (by simp) (executeMiscMem_plain _ _) h))
  | loadFp _ => exact .inr (.inr (plain (by simp) (executeLoadFp_plain _ _ _) h))
  | storeFp _ => exact .inr (.inr (plain (by simp) (executeStoreFp_plain _ _) h))
  | opFp _ => exact .inr (.inr (plain (by simp) (executeOpFp_plain _ _ _) h))
  | fmaFp _ => exact .inr (.inr (plain (by simp) (execute_fpuCall_plain rfl _) h))
  | invalid => cases h

end ZincSim
